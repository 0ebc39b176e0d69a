import Cantos.Hw.Keyboard
import Cantos.Lib.Ports
import Mathlib.Data.Fin.VecNotation
import Mathlib.Data.List.FinRange

/-!
# The serial ports

`serial_init` finds out which of the four serial ports there are and sets them up, and
`all_serial_ports` writes to all of them.  What a port answers is up to it.

The loop that waits for the transmitter has no bound, so the programs here have fuel for it and are
cut off when it is used up.

## Main definitions

* `serialInit`, `SerialPort.write`, `AllSerialPorts.write`: the functions.
* `Uart`, `accept`: the registers behind the ports, and what they put on the line.

## Main results

* `session_sends`: what is on the lines after any writes.
-/

namespace Cantos.Serial

open Ps2keyboard (Byte)

def portCount : ℕ := 4

def scratchTest : Byte := 0x53

/-- `_check` -/
def check : Fin portCount → ℕ := ![0x3f8, 0x2f8, 0x3e8, 0x2e8]

def comDat : ℕ := 0x0
def comIntEnable : ℕ := 0x1
def comIntId : ℕ := 0x2
def comLineControl : ℕ := 0x3
def comModemControl : ℕ := 0x4
def comLineStatus : ℕ := 0x5
def comScratch : ℕ := 0x7

/-- The port that `io_wait` writes to. -/
def checkpoint : ℕ := 0x80

/-- The `io_port` of `serial_ports`: 0 if absent. -/
structure Vars where
  ioPort : Fin portCount → ℕ

/-- It still waits. -/
inductive Halt
  | cutOff
  deriving DecidableEq, Repr

abbrev Prog := Exec Halt (Ports.Bus ℕ Byte Vars)

def transmitEmpty (base : ℕ) : Prog Bool := do
  let status ← Ports.inb (base + comLineStatus)
  pure (status &&& 0x20 ≠ 0)

/-- `while(!_transmit_empty(this->io_port))` -/
def waitEmpty (base : ℕ) : (fuel : ℕ) → Prog Unit
  | 0 => Exec.stop .cutOff
  | fuel + 1 => do
      let empty ← transmitEmpty base
      if empty then pure () else waitEmpty base fuel

/-- The loop of `SerialPort::write`. -/
def writeBytes (fuel base : ℕ) : List Byte → Prog Unit
  | [] => pure ()
  | b :: buff => do
      waitEmpty base fuel
      Ports.outb (base + comDat) b
      writeBytes fuel base buff

/-- `SerialPort::write`, with what it has written. -/
def SerialPort.write (fuel base : ℕ) (buff : List Byte) : Prog ℕ := do
  writeBytes fuel base buff
  pure buff.length

/-- The body of the loop of `AllSerialPorts::write`. -/
def writePort (fuel : ℕ) (buff : List Byte) (i : Fin portCount) : Prog Unit := do
  let v ← Ports.vars
  if v.ioPort i ≠ 0 then do
    let _ ← SerialPort.write fuel (v.ioPort i) buff
    pure ()
  else pure ()

/-- `AllSerialPorts::write`, with what it has written. -/
def AllSerialPorts.write (fuel : ℕ) (buff : List Byte) : Prog ℕ := do
  (List.finRange portCount).forM (writePort fuel buff)
  pure buff.length

/-- A port that is there. -/
def setUp (i : Fin portCount) : Prog Unit := do
  Ports.modifyVars fun v => { v with ioPort := Function.update v.ioPort i (check i) }
  Ports.outb (check i + comIntEnable) 0x00
  Ports.outb (check i + comLineControl) 0x80
  Ports.outb (check i + comDat) 0x03
  Ports.outb (check i + comIntEnable) 0x00
  Ports.outb (check i + comLineControl) 0x03
  Ports.outb (check i + comIntId) 0xc7
  Ports.outb (check i + comModemControl) 0x0b

/-- The body of the loop of `serial_init`. -/
def probe (i : Fin portCount) : Prog Unit := do
  Ports.outb (check i + comScratch) scratchTest
  Ports.outb checkpoint 0
  let b ← Ports.inb (check i + comScratch)
  if b = scratchTest then setUp i else pure ()

/-- `serial_init` -/
def serialInit : Prog Unit := (List.finRange portCount).forM probe

/-- `serial_init` at boot, and the writes after it. -/
def session (fuel : ℕ) (buffs : List (List Byte)) : Prog Unit := do
  serialInit
  buffs.forM fun buff => do
    let _ ← AllSerialPorts.write fuel buff
    pure ()

/-! ## The registers -/

/-- A byte on the line, with the divisor of the baud rate and the format that it is sent with. -/
structure Frame where
  divisor : ℕ
  lineControl : Byte
  data : Byte
  deriving DecidableEq, Repr

/-- The registers of a port. -/
structure Uart where
  divisorLow : Byte
  divisorHigh : Byte
  intEnable : Byte
  fifoControl : Byte
  lineControl : Byte
  modemControl : Byte
  scratch : Byte
  /-- The scratch register has answered what was written to it. -/
  present : Bool
  /-- The transmitter was empty when it was last asked, and has been given nothing since. -/
  empty : Bool
  /-- How often it has answered in a row that the transmitter is not empty. -/
  busy : ℕ
  /-- What has been put on the line. -/
  sent : List Frame
  deriving DecidableEq, Repr

/-- The divisor latch is in front of the data and the interrupt register. -/
def Uart.latch (u : Uart) : Bool := u.lineControl &&& 0x80 ≠ 0

def Uart.frame (u : Uart) (b : Byte) : Frame :=
  ⟨256 * u.divisorHigh.toNat + u.divisorLow.toNat, u.lineControl, b⟩

/-- Write a register. A byte is only sent when the transmitter is empty. -/
def Uart.out (u : Uart) (r : ℕ) (b : Byte) : Option Uart :=
  if r = comDat then
    if u.latch then some { u with divisorLow := b }
    else if u.empty then some { u with empty := false, sent := u.sent ++ [u.frame b] }
    else none
  else if r = comIntEnable then
    if u.latch then some { u with divisorHigh := b } else some { u with intEnable := b }
  else if r = comIntId then some { u with fifoControl := b }
  else if r = comLineControl then some { u with lineControl := b }
  else if r = comModemControl then some { u with modemControl := b }
  else if r = comScratch then some { u with scratch := b }
  else none

/-- Read a register. -/
def Uart.inp (u : Uart) (r : ℕ) (b : Byte) : Option Uart :=
  if r = comLineStatus then
    if b &&& 0x20 ≠ 0 then some { u with empty := true, busy := 0 }
    else some { u with empty := false, busy := u.busy + 1 }
  else if r = comScratch then some { u with present := b = u.scratch }
  else none

/-- The port and the register at an address. -/
def decode (addr : ℕ) : Option (Fin portCount × ℕ) :=
  ((List.finRange portCount).find? fun i => check i ≤ addr ∧ addr < check i + 8).map
    fun i => (i, addr - check i)

abbrev Monitor := Fin portCount → Uart

def accept (m : Monitor) : Ports.Event ℕ Byte → Option Monitor
  | .inp addr b =>
      match decode addr with
      | none => none
      | some (i, r) => ((m i).inp r b).map (Function.update m i)
  | .out addr b =>
      match decode addr with
      | none => if addr = checkpoint then some m else none
      | some (i, r) => ((m i).out r b).map (Function.update m i)

variable {m m₀ m₁ : Monitor} {v v₁ : Vars} {u u' u₀ : Uart} {i j : Fin portCount} {r n fuel : ℕ}
  {b : Byte} {text text' : Fin portCount → List Byte} {total buff : List Byte}

theorem decode_check (hr : r < 8) : decode (check i + r) = some (i, r) := by
  have hall : ∀ (i : Fin portCount) (r : Fin 8), decode (check i + r) = some (i, r.val) := by
    decide
  exact hall i ⟨r, hr⟩

theorem check_ne_zero (i : Fin portCount) : check i ≠ 0 := by
  have hall : ∀ i, check i ≠ 0 := by decide
  exact hall i

theorem accept_out (hr : r < 8) (h : (m i).out r b = some u) :
    accept m (.out (check i + r) b) = some (Function.update m i u) := by
  simp [accept, decode_check hr, h]

theorem accept_inp (hr : r < 8) (h : (m i).inp r b = some u) :
    accept m (.inp (check i + r) b) = some (Function.update m i u) := by
  simp [accept, decode_check hr, h]

/-! ## The ports that are there -/

/-- As a byte is to be sent: 38400 baud, 8 bits, no parity, one stop bit. -/
def Frame.of (b : Byte) : Frame := ⟨3, 0x03, b⟩

/-- As `serial_init` leaves a port that is there, and was `u₀`. -/
structure Uart.IsSetUp (u₀ u : Uart) : Prop where
  divisorLow : u.divisorLow = 3
  divisorHigh : u.divisorHigh = 0
  /-- "Disable all interrupts" comes first, and gets behind the latch if that is open. -/
  intEnable : u₀.latch = false → u.intEnable = 0
  fifoControl : u.fifoControl = 0xc7
  lineControl : u.lineControl = 0x03
  modemControl : u.modemControl = 0x0b

/-- A port that was `u₀` before `serial_init`, and the text that has been written since. -/
structure Sends (i : Fin portCount) (u₀ u : Uart) (ioPort : ℕ) (text : List Byte) : Prop where
  present : u.present = true →
    ioPort = check i ∧ Uart.IsSetUp u₀ u ∧ u.sent = u₀.sent ++ text.map Frame.of
  absent : u.present = false →
    ioPort = 0 ∧ u = { u₀ with scratch := scratchTest, present := false }

/-- All four. -/
def AllSend (m₀ : Monitor) (text : Fin portCount → List Byte) (m : Monitor) (v : Vars) : Prop :=
  ∀ i, Sends i (m₀ i) (m i) (v.ioPort i) (text i)

/-- A port that is there has answered `fuel` times in a row that its transmitter is not empty, and
what is on the lines is the beginning of the text. -/
def CutOff (m₀ : Monitor) (fuel : ℕ) (total : List Byte) : Halt → Monitor → Prop
  | .cutOff, m => (∃ i, (m i).present = true ∧ fuel ≤ (m i).busy) ∧
      ∀ i, ∃ text, text <+: total ∧ (m i).sent = (m₀ i).sent ++ text.map Frame.of

/-- The rules for what the functions do. -/
abbrev Follows (m₀ : Monitor) (fuel : ℕ) (total : List Byte) {α : Type}
    (P : Monitor → Vars → Prop) (x : Prog α) (Q : α → Monitor → Vars → Prop) : Prop :=
  Ports.Follows accept m₀ P x Q (CutOff m₀ fuel total)

/-- What is on the line of a port is the beginning of what is to be written. -/
theorem Sends.prefix_total {ioPort : ℕ} {text : List Byte} (h : Sends i u₀ u ioPort text)
    (htotal : text <+: total) :
    ∃ t, t <+: total ∧ u.sent = u₀.sent ++ t.map Frame.of := by
  cases hp : u.present with
  | true => exact ⟨text, htotal, (h.present hp).2.2⟩
  | false =>
    refine ⟨[], List.nil_prefix, ?_⟩
    simp [(h.absent hp).2]

/-- The other ports stay as they are. -/
theorem AllSend.update (h : AllSend m₀ text m v)
    (hi : Sends i (m₀ i) u (v.ioPort i) (text' i)) (hj : ∀ j, j ≠ i → text' j = text j) :
    AllSend m₀ text' (Function.update m i u) v := by
  intro j
  by_cases hji : j = i
  · subst hji
    rwa [Function.update_self]
  · rw [Function.update_of_ne hji, hj j hji]
    exact h j

/-- The status of the transmitter is no part of it. -/
theorem Sends.status {ioPort : ℕ} {text : List Byte} {empty : Bool} {busy : ℕ}
    (h : Sends i u₀ u ioPort text) (hp : u.present = true) :
    Sends i u₀ { u with empty := empty, busy := busy } ioPort text where
  present _ := by
    obtain ⟨hio, hset, hsent⟩ := h.present hp
    exact ⟨hio, ⟨hset.1, hset.2, hset.3, hset.4, hset.5, hset.6⟩, hsent⟩
  absent hn := by
    rw [hp] at hn
    cases hn

/-- A byte is sent with the format that the port is set up with. -/
theorem Uart.IsSetUp.out_dat (h : Uart.IsSetUp u₀ u) (he : u.empty = true) (b : Byte) :
    u.out comDat b = some { u with empty := false, sent := u.sent ++ [Frame.of b] } := by
  have hlatch : u.latch = false := by
    rw [Uart.latch, h.lineControl]
    decide
  have hframe : u.frame b = Frame.of b := by
    simp [Uart.frame, Frame.of, h.divisorLow, h.divisorHigh, h.lineControl]
  simp [Uart.out, hlatch, he, hframe]

/-! ## The writes -/

/-- `text'` is what has been written when `buff` has been written to the port `i` too. -/
structure Extends (text text' : Fin portCount → List Byte) (i : Fin portCount) (buff : List Byte) :
    Prop where
  self : text' i = text i ++ buff
  other : ∀ j, j ≠ i → text' j = text j

theorem Extends.isPrefix (h : Extends text text' i buff) (htotal : ∀ j, text' j <+: total)
    (j : Fin portCount) : text j <+: total := by
  refine List.IsPrefix.trans ?_ (htotal j)
  by_cases hj : j = i
  · subst hj
    rw [h.self]
    exact List.prefix_append ..
  · rw [h.other j hj]

theorem extends_update : Extends text (Function.update text i (text i ++ buff)) i buff where
  self := Function.update_self ..
  other _ hj := Function.update_of_ne hj ..

theorem Extends.tail (h : Extends text text' i (b :: buff)) :
    Extends (Function.update text i (text i ++ [b])) text' i buff where
  self := by
    rw [h.self, Function.update_self]
    simp
  other j hj := by
    rw [h.other j hj, Function.update_of_ne hj]

theorem follows_transmitEmpty :
    Follows m₀ fuel total
      (fun m v => AllSend m₀ text m v ∧ (m i).present = true ∧ fuel ≤ (m i).busy + (n + 1))
      (transmitEmpty (check i))
      (fun e m v => AllSend m₀ text m v ∧ (m i).present = true ∧
        (e = true → (m i).empty = true) ∧ (e = false → fuel ≤ (m i).busy + n)) := by
  refine .bind (Q := fun b m v => AllSend m₀ text m v ∧ (m i).present = true ∧
    (b &&& 0x20 ≠ 0 → (m i).empty = true) ∧ (b &&& 0x20 = 0 → fuel ≤ (m i).busy + n))
    (.inb fun m v b h => ?_) fun b => .pure fun m v h => ?_
  · obtain ⟨hall, hp, hbusy⟩ := h
    by_cases hb : b &&& 0x20 ≠ 0
    · refine ⟨_, accept_inp (by decide) (if_pos hb), ?_⟩
      refine ⟨hall.update ((hall i).status hp) fun _ _ => rfl, ?_⟩
      simp only [Function.update_self]
      exact ⟨hp, fun _ => trivial, fun h => absurd h hb⟩
    · refine ⟨_, accept_inp (by decide) (if_neg hb), ?_⟩
      refine ⟨hall.update ((hall i).status hp) fun _ _ => rfl, ?_⟩
      simp only [Function.update_self]
      refine ⟨hp, fun h => absurd h hb, fun _ => ?_⟩
      omega
  · obtain ⟨hall, hp, hready, hbusy⟩ := h
    exact ⟨hall, hp, fun he => hready (of_decide_eq_true he),
      fun he => hbusy (not_not.mp (of_decide_eq_false he))⟩

theorem follows_waitEmpty (htotal : ∀ j, text j <+: total) :
    Follows m₀ fuel total
      (fun m v => AllSend m₀ text m v ∧ (m i).present = true ∧ fuel ≤ (m i).busy + n)
      (waitEmpty (check i) n)
      (fun _ m v => AllSend m₀ text m v ∧ (m i).present = true ∧ (m i).empty = true) := by
  induction n with
  | zero =>
    refine .stop fun m v h => ?_
    obtain ⟨hall, hp, hbusy⟩ := h
    exact ⟨⟨i, hp, hbusy⟩, fun j => (hall j).prefix_total (htotal j)⟩
  | succ n ih =>
    refine .bind follows_transmitEmpty fun e => .ite (fun he => .pure fun m v h => ?_) fun he => ?_
    · exact ⟨h.1, h.2.1, h.2.2.1 he⟩
    · refine ih.mono (fun m v h => ?_) fun _ _ _ h => h
      exact ⟨h.1, h.2.1, h.2.2.2 (Bool.eq_false_iff.mpr he)⟩

/-- A port that is there sends what is written to it, whatever the others have been written. -/
theorem follows_writeBytes (hext : Extends text text' i buff) (htotal : ∀ j, text' j <+: total) :
    Follows m₀ fuel total (fun m v => AllSend m₀ text m v ∧ (m i).present = true)
      (writeBytes fuel (check i) buff) (fun _ => AllSend m₀ text') := by
  induction buff generalizing text with
  | nil =>
    refine .pure fun m v h => ?_
    have htext : text' = text := by
      funext j
      by_cases hj : j = i
      · rw [hj, hext.self, List.append_nil]
      · exact hext.other j hj
    exact htext ▸ h.1
  | cons b buff ih =>
    refine .bind ((follows_waitEmpty (hext.isPrefix htotal)).mono
      (fun m v h => ⟨h.1, h.2, Nat.le_add_left ..⟩) fun _ _ _ h => h) fun _ => ?_
    refine .bind (.outb fun m v h => ?_) fun _ => ih hext.tail
    obtain ⟨hall, hp, he⟩ := h
    obtain ⟨hio, hset, hsent⟩ := (hall i).present hp
    refine ⟨_, accept_out (by decide) (hset.out_dat he b), ?_, ?_⟩
    · refine hall.update ⟨fun _ => ⟨hio, ⟨hset.1, hset.2, hset.3, hset.4, hset.5, hset.6⟩, ?_⟩,
        fun hn => ?_⟩ extends_update.other
      · simp [hsent]
      · rw [hp] at hn
        cases hn
    · simpa using hp

theorem follows_writePort (hext : Extends text text' i buff) (htotal : ∀ j, text' j <+: total) :
    Follows m₀ fuel total (AllSend m₀ text) (writePort fuel buff i)
      (fun _ => AllSend m₀ text') := by
  refine .fix fun m v h => ?_
  refine .bind (Q := fun w m' v' => (m' = m ∧ v' = v) ∧ w = v)
    (.vars fun _ _ hs => ⟨hs, hs.2⟩) fun w => .fact fun hw => ?_
  subst hw
  refine .ite (fun hio => ?_) fun hio => .pure fun m' v' hs => ?_
  · -- A port with a base is there.
    have hp : (m i).present = true := by
      by_contra hp
      exact hio ((h i).absent (Bool.eq_false_iff.mpr hp)).1
    rw [((h i).present hp).1]
    refine .bind (Q := fun _ => AllSend m₀ text') (.bind (Q := fun _ => AllSend m₀ text') ?_
      fun _ => .pure fun _ _ h => h) fun _ => .pure fun _ _ h => h
    refine (follows_writeBytes hext htotal).mono (fun m' v' hs => ?_) fun _ _ _ h => h
    rw [hs.1, hs.2]
    exact ⟨h, hp⟩
  · have hp : (m i).present = false := by
      by_contra hp
      refine check_ne_zero i ?_
      rw [← ((h i).present (Bool.eq_true_of_not_eq_false hp)).1]
      exact not_not.mp hio
    rw [hs.1, hs.2]
    have hi : Sends i (m₀ i) (m i) (w.ioPort i) (text' i) :=
      ⟨fun hn => absurd (hp.symm.trans hn) (by decide), (h i).absent⟩
    simpa using h.update hi hext.other

/-- The texts when `buff` has been written to all ports but those in `rest`. -/
def written (text buff : List Byte) (rest : List (Fin portCount)) (i : Fin portCount) : List Byte :=
  if i ∈ rest then text else text ++ buff

theorem written_extends {text : List Byte} {rest : List (Fin portCount)} (hi : i ∉ rest) :
    Extends (written text buff (i :: rest)) (written text buff rest) i buff where
  self := by simp [written, hi]
  other j hj := by simp [written, hj]

/-- All ports that are there send what is written. -/
theorem follows_write {text : List Byte} (htotal : text ++ buff <+: total) :
    Follows m₀ fuel total (AllSend m₀ fun _ => text) (AllSerialPorts.write fuel buff)
      (fun _ => AllSend m₀ fun _ => text ++ buff) := by
  have hloop : Follows m₀ fuel total (AllSend m₀ (written text buff (List.finRange portCount)))
      ((List.finRange portCount).forM (writePort fuel buff))
      (fun _ => AllSend m₀ (written text buff [])) := by
    refine .forM (P := fun rest => AllSend m₀ (written text buff rest)) fun i rest hsuffix => ?_
    have hnodup : (i :: rest).Nodup := (List.nodup_finRange portCount).sublist hsuffix.sublist
    refine follows_writePort (written_extends (List.nodup_cons.mp hnodup).1) fun j => ?_
    unfold written
    split_ifs
    · exact (List.prefix_append text buff).trans htotal
    · exact htotal
  have hfirst : written text buff (List.finRange portCount) = fun _ => text := by
    funext i
    exact if_pos (List.mem_finRange i)
  have hlast : written text buff [] = fun _ => text ++ buff := by
    funext i
    exact if_neg List.not_mem_nil
  rw [hfirst, hlast] at hloop
  exact .bind hloop fun _ => .pure fun _ _ h => h

theorem follows_writes (text : List Byte) {buffs : List (List Byte)}
    (htotal : text ++ buffs.flatten <+: total) :
    Follows m₀ fuel total (AllSend m₀ fun _ => text)
      (buffs.forM fun buff => do
        let _ ← AllSerialPorts.write fuel buff
        pure ())
      (fun _ => AllSend m₀ fun _ => text ++ buffs.flatten) := by
  induction buffs generalizing text with
  | nil => exact .pure fun m v h => by simpa using h
  | cons buff buffs ih =>
    rw [List.flatten_cons, ← List.append_assoc] at htotal ⊢
    have hbuff : text ++ buff <+: total := (List.prefix_append ..).trans htotal
    exact .bind (.bind (follows_write hbuff) fun _ => .pure fun _ _ h => h) fun _ => ih (text ++ buff) htotal

/-! ## The set-up -/

/-- A write to a register of a port changes the port only. -/
theorem follows_out (hr : r < 8) (h : u.out r b = some u') :
    Follows m₀ fuel total (fun m v => m = Function.update m₁ i u ∧ v = v₁)
      (Ports.outb (check i + r) b) (fun _ m v => m = Function.update m₁ i u' ∧ v = v₁) := by
  refine .outb fun m v hs => ?_
  obtain ⟨rfl, rfl⟩ := hs
  refine ⟨_, accept_out hr (u := u') ?_, ?_, rfl⟩
  · rw [Function.update_self]
    exact h
  · rw [Function.update_idem]

theorem Uart.out_divisorLow (h : u.lineControl = 0x80) (b : Byte) :
    u.out comDat b = some { u with divisorLow := b } := by
  simp [Uart.out, Uart.latch, h]

theorem Uart.out_divisorHigh (h : u.lineControl = 0x80) (b : Byte) :
    u.out comIntEnable b = some { u with divisorHigh := b } := by
  simp [Uart.out, Uart.latch, h, comDat, comIntEnable]

/-- The first write of `serial_init` to a port that is there. -/
theorem Uart.out_intEnable (u : Uart) : ∃ u', u.out comIntEnable 0 = some u' ∧
    (u.latch = false → u'.intEnable = 0) ∧ u'.present = u.present ∧ u'.sent = u.sent := by
  cases hlatch : u.latch with
  | true =>
    refine ⟨{ u with divisorHigh := 0 }, by simp [Uart.out, hlatch, comDat, comIntEnable], ?_, rfl,
      rfl⟩
    intro h
    cases h
  | false =>
    exact ⟨{ u with intEnable := 0 }, by simp [Uart.out, hlatch, comDat, comIntEnable],
      fun _ => rfl, rfl, rfl⟩

theorem follows_setUp :
    Follows m₀ fuel total (fun m v => m = Function.update m₁ i u ∧ v = v₁) (setUp i)
      (fun _ m v => (∃ u', m = Function.update m₁ i u' ∧ Uart.IsSetUp u u' ∧
        u'.present = u.present ∧ u'.sent = u.sent) ∧
        v = ⟨Function.update v₁.ioPort i (check i)⟩) := by
  obtain ⟨u₁, hout, hint, hpresent, hsent⟩ := u.out_intEnable
  refine .bind (Q := fun _ m v => m = Function.update m₁ i u ∧
    v = ⟨Function.update v₁.ioPort i (check i)⟩) (.modifyVars fun m v hs => ?_) fun _ => ?_
  · exact ⟨hs.1, by rw [hs.2]⟩
  refine .bind (follows_out (by decide) hout) fun _ => ?_
  refine .bind (follows_out (by decide) rfl) fun _ => ?_
  refine .bind (follows_out (by decide) (Uart.out_divisorLow rfl 0x03)) fun _ => ?_
  refine .bind (follows_out (by decide) (Uart.out_divisorHigh rfl 0x00)) fun _ => ?_
  refine .bind (follows_out (by decide) rfl) fun _ => ?_
  refine .bind (follows_out (by decide) rfl) fun _ => ?_
  refine (follows_out (by decide) rfl).mono (fun _ _ h => h) fun _ m v h => ?_
  exact ⟨⟨_, h.1, ⟨rfl, rfl, hint, rfl, rfl, rfl⟩, hpresent, hsent⟩, h.2⟩

/-- `serial_init` sets up a port that answers, and leaves the others alone. -/
theorem follows_probe (hio : v₁.ioPort i = 0) :
    Follows m₀ fuel total (fun m v => m = m₁ ∧ v = v₁) (probe i)
      (fun _ m v => (∃ u', Sends i (m₁ i) u' (v.ioPort i) [] ∧ m = Function.update m₁ i u') ∧
        ∀ j, j ≠ i → v.ioPort j = v₁.ioPort j) := by
  refine .bind (Q := fun _ m v => m = Function.update m₁ i { m₁ i with scratch := scratchTest } ∧
    v = v₁) ((follows_out (u := m₁ i) (by decide) rfl).mono (fun m v hs => ?_) fun _ _ _ h => h)
    fun _ => ?_
  · rw [Function.update_eq_self]
    exact hs
  refine .bind (Q := fun _ m v => m = Function.update m₁ i { m₁ i with scratch := scratchTest } ∧
    v = v₁) (.outb fun m v hs => ⟨m, rfl, hs⟩) fun _ => ?_
  refine .bind (Q := fun b m v => m = Function.update m₁ i
    { m₁ i with scratch := scratchTest, present := b = scratchTest } ∧ v = v₁)
    (.inb fun m v b hs => ?_) fun b => .ite (fun hb => ?_) fun hb => .pure fun m v hs => ?_
  · obtain ⟨rfl, rfl⟩ := hs
    refine ⟨_, accept_inp (by decide) rfl, ?_, rfl⟩
    rw [Function.update_self, Function.update_idem]
  · refine follows_setUp.mono (fun _ _ h => h) fun _ m v hs => ?_
    obtain ⟨⟨u', hm, hset, hp, hsent⟩, rfl⟩ := hs
    refine ⟨⟨u', ⟨fun _ => ⟨Function.update_self .., ?_, ?_⟩, fun hn => ?_⟩, hm⟩, fun j hj => ?_⟩
    · exact ⟨hset.1, hset.2, hset.3, hset.4, hset.5, hset.6⟩
    · rw [hsent]
      simp
    · rw [hp, decide_eq_true hb] at hn
      cases hn
    · exact Function.update_of_ne hj ..
  · obtain ⟨rfl, rfl⟩ := hs
    refine ⟨⟨_, ⟨fun hp => absurd (of_decide_eq_true hp) hb, fun _ => ⟨hio, ?_⟩⟩, rfl⟩,
      fun _ _ => rfl⟩
    rw [decide_eq_false hb]

/-- What has been done when `serial_init` has come to `rest`. -/
def Probed (m₀ : Monitor) (rest : List (Fin portCount)) (m : Monitor) (v : Vars) : Prop :=
  ∀ i, if i ∈ rest then m i = m₀ i ∧ v.ioPort i = 0 else Sends i (m₀ i) (m i) (v.ioPort i) []

theorem follows_probed {rest : List (Fin portCount)} (hi : i ∉ rest) :
    Follows m₀ fuel total (Probed m₀ (i :: rest)) (probe i) (fun _ => Probed m₀ rest) := by
  refine .fix fun m₁ v₁ h => ?_
  have hself := h i
  rw [if_pos List.mem_cons_self] at hself
  refine (follows_probe hself.2).mono (fun _ _ hs => hs) fun _ m v hs j => ?_
  obtain ⟨⟨u', hu', rfl⟩, hother⟩ := hs
  by_cases hj : j = i
  · subst hj
    rw [if_neg hi, Function.update_self, ← hself.1]
    exact hu'
  · have hrest := h j
    simp only [List.mem_cons, hj, false_or] at hrest
    rw [Function.update_of_ne hj, hother j hj]
    exact hrest

theorem follows_serialInit :
    Follows m₀ fuel total (Probed m₀ (List.finRange portCount)) serialInit
      (fun _ => AllSend m₀ fun _ => []) := by
  refine Ports.Follows.mono (.forM (P := Probed m₀) fun i rest hsuffix => ?_) (fun _ _ h => h)
    fun _ m v h i => ?_
  · have hnodup : (i :: rest).Nodup := (List.nodup_finRange portCount).sublist hsuffix.sublist
    exact follows_probed (List.nodup_cons.mp hnodup).1
  · have hi := h i
    rwa [if_neg List.not_mem_nil] at hi

/-- As the variables are before the first call. -/
def Vars.zero : Vars := ⟨fun _ => 0⟩

/-- The writes after boot, with these answers of the ports. -/
def boot (answers : ℕ → Byte) (fuel : ℕ) (buffs : List (List Byte)) :
    Except Halt Unit × Ports.Bus ℕ Byte Vars :=
  session fuel buffs ⟨answers, [], Vars.zero⟩

theorem boot_spec (m₀ : Monitor) (answers : ℕ → Byte) (fuel : ℕ) (buffs : List (List Byte)) :
    ∃ m, (boot answers fuel buffs).2.seen accept m₀ = some m ∧
      ((boot answers fuel buffs).1 = .ok () →
        AllSend m₀ (fun _ => buffs.flatten) m (boot answers fuel buffs).2.vars) ∧
      ∀ e, (boot answers fuel buffs).1 = .error e → CutOff m₀ fuel buffs.flatten e m := by
  have hrun : Follows m₀ fuel buffs.flatten (Probed m₀ (List.finRange portCount))
      (session fuel buffs) (fun _ => AllSend m₀ fun _ => buffs.flatten) :=
    .bind follows_serialInit fun _ => by simpa using follows_writes [] (by simp)
  have hboot : Probed m₀ (List.finRange portCount) m₀ Vars.zero := by
    intro i
    rw [if_pos (List.mem_finRange i)]
    exact ⟨rfl, rfl⟩
  obtain ⟨m, hlog, hok, herr⟩ := hrun ⟨answers, [], Vars.zero⟩ m₀ rfl hboot
  exact ⟨m, hlog, hok (), herr⟩

/-- Whatever the ports answer, and in whatever state they are at boot, a byte is only given to a
transmitter that is empty.  When the writes return, the line of every port that has answered in
`serial_init` has been sent exactly what was written, at 38400 baud and in order, and the others
have been sent nothing; when they do not return, the lines have been sent a part of it from the
beginning on, and a port says that its transmitter is not empty. -/
theorem session_sends (m₀ : Monitor) (answers : ℕ → Byte) (fuel : ℕ) (buffs : List (List Byte)) :
    ∃ m, (boot answers fuel buffs).2.seen accept m₀ = some m ∧
      ((boot answers fuel buffs).1 = .ok () →
        ∀ i, Sends i (m₀ i) (m i) ((boot answers fuel buffs).2.vars.ioPort i) buffs.flatten) ∧
      ((boot answers fuel buffs).1 = .error .cutOff →
        (∃ i, (m i).present = true ∧ fuel ≤ (m i).busy) ∧
        ∀ i, ∃ text, text <+: buffs.flatten ∧
          (m i).sent = (m₀ i).sent ++ text.map Frame.of) := by
  obtain ⟨m, hlog, hok, herr⟩ := boot_spec m₀ answers fuel buffs
  exact ⟨m, hlog, hok, herr .cutOff⟩

/-- A port after a reset. -/
def Uart.reset : Uart := ⟨0, 0, 0, 0, 0, 0, 0, false, false, 0, []⟩

/-- COM1 is there, and its transmitter is not empty at once. -/
def firstAnswers : List Byte := [0x53, 0xff, 0xff, 0xff, 0x00, 0x20, 0x20]

example : (boot (firstAnswers.getD · 0) 2 [[0x68], [0x69]]).1 = .ok () ∧
    (boot (firstAnswers.getD · 0) 2 [[0x68], [0x69]]).2.log.reverse.take 5 =
      [.out 0x3f8 0x69, .inp 0x3fd 0x20, .out 0x3f8 0x68, .inp 0x3fd 0x20, .inp 0x3fd 0x00] := by
  decide +kernel

end Cantos.Serial
