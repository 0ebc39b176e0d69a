import Cantos.Hw.Keyboard
import Cantos.Lib.Ports

/-!
# The PS/2 controller

`ps2::init` tests the controller and its two ports, asks the devices what they are, enables those
that it knows, and lets the drivers configure the keyboards.  It only sees what it reads from the
controller, which may answer anything: the code does not look whether there is an answer.

The loops that wait have no bound, so the programs here have fuel for them and are cut off when it
is used up.  The drivers wait for interrupts, of which any may come between two of their steps.

## Main definitions

* `Ports`: the variables of `ps2.cpp`.
* `init`, `portInit`: the two functions.
* `interrupts`, `configure`: the interrupts that come, and what a driver does meanwhile.
* `Monitor`, `accept`: the protocol of the controller.

## Main results

* `boot_follows`: what `init` does at the ports, and what it leaves.
-/

namespace Cantos.Ps2

open Ps2keyboard (Byte)

/-- The two addresses of the controller; status and command have one. -/
inductive Port
  | data
  | status
  /-- The next interrupt of the CPU, which is read as if it were a port. -/
  | interrupts
  deriving DecidableEq, Repr

def statInbuff : Byte := 0x02

def comRead : Byte := 0x20
def comWrite : Byte := 0x60
def comDis2 : Byte := 0xa7
def comEn2 : Byte := 0xa8
def comTest2 : Byte := 0xa9
def comTestcon : Byte := 0xaa
def comTest1 : Byte := 0xab
def comDis1 : Byte := 0xad
def comEn1 : Byte := 0xae
def comNext2in : Byte := 0xd4

def conEn1 : Byte := 0x01
def conEn2 : Byte := 0x02
def conClock2 : Byte := 0x20
def conTrans : Byte := 0x40

def devIdentify : Byte := 0xf2
def devDisableScan : Byte := 0xf5

/-- The types of devices. -/
inductive DeviceType
  | unknown
  | translationKeyboardAt
  | standardMouse
  | scrollMouse
  | fiveBtnMouse
  | translationMf2Keyboard
  | mf2Keyboard
  deriving DecidableEq, Repr

/-- The values of the types. -/
def DeviceType.code : DeviceType → Byte
  | .unknown => 0x0
  | .translationKeyboardAt => 0x80
  | .standardMouse => 0x40
  | .scrollMouse => 0x41
  | .fiveBtnMouse => 0x42
  | .translationMf2Keyboard => 0x81
  | .mf2Keyboard => 0x82

/-- `type & TYPE_KEYBOARD` -/
def DeviceType.isKeyboard (t : DeviceType) : Bool := t.code &&& 0x80 ≠ 0

/-- `Ps2Port` -/
structure Ps2Port where
  enabled : Bool
  second : Bool
  timedOut : Bool
  type : DeviceType
  driver : Option Ps2keyboard.Driver
  deriving DecidableEq, Repr

/-- The variables of `ps2.cpp`. -/
structure Vars where
  dual : Bool
  knownDual : Bool
  /-- `ports`, the second one for `true`. -/
  ports : Bool → Ps2Port

/-- Why `init` ends before it returns. -/
inductive Halt
  /-- `panic("PS/2 failed self-test, got %x", result)` -/
  | selfTest (result : Byte)
  /-- It still waits. -/
  | cutOff
  deriving DecidableEq, Repr

abbrev Prog := Exec Halt (Ports.Bus Port Byte Vars)

/-- As the variables are before the first call. -/
def Vars.zero : Vars := ⟨false, false, fun _ => ⟨false, false, false, .unknown, none⟩⟩

def Vars.setPort (v : Vars) (i : Bool) (f : Ps2Port → Ps2Port) : Vars :=
  { v with ports := Function.update v.ports i (f (v.ports i)) }

def readData : Prog Byte := Ports.inb .data

def writeData (dat : Byte) : Prog Unit := Ports.outb .data dat

def writeCommand (com : Byte) : Prog Unit := Ports.outb .status com

def readStatus : Prog Byte := Ports.inb .status

/-- `while(_read_status() & STAT_INBUFF)` -/
def waitInbuff : (fuel : ℕ) → Prog Unit
  | 0 => Exec.stop .cutOff
  | fuel + 1 => do
      let status ← readStatus
      if status &&& statInbuff ≠ 0 then waitInbuff fuel else pure ()

def writeDoubleCommand (fuel : ℕ) (com arg : Byte) : Prog Unit := do
  writeCommand com
  waitInbuff fuel
  writeData arg

def waitReadData (fuel : ℕ) : Prog Byte := do
  waitInbuff fuel
  readData

def setTimedOut (i b : Bool) : Prog Unit :=
  Ports.modifyVars fun v => v.setPort i fun p => { p with timedOut := b }

/-- The loop of `Ps2Port::read`, for a timeout that is not 0. -/
def readLoop (i : Bool) : (timeout : ℕ) → Prog Byte
  | 0 => Exec.stop .cutOff
  | timeout + 1 => do
      let status ← readStatus
      if status &&& statInbuff ≠ 0 then
        if timeout = 0 then do
          setTimedOut i true
          pure 0xff
        else readLoop i timeout
      else readData

/-- `Ps2Port::read` -/
def read (i : Bool) (timeout : ℕ) : Prog Byte := do
  setTimedOut i false
  readLoop i timeout

/-- The variables of a port. -/
def getPort (i : Bool) : Prog Ps2Port := do
  let v ← Ports.vars
  pure (v.ports i)

/-- `Ps2Port::write`, and what comes between the command and its argument. -/
def writeAmid (between : Prog Unit) (i : Bool) (dat : Byte) : Prog Unit := do
  let port ← getPort i
  if port.second then do
    writeCommand comNext2in
    between
    writeData dat
  else writeData dat

/-- `Ps2Port::write`, when there are no interrupts. -/
def write (i : Bool) (dat : Byte) : Prog Unit := writeAmid (pure ()) i dat

/-- `Ps2Port::write_ack` -/
def writeAck (i : Bool) (dat : Byte) : (fuel : ℕ) → Prog Unit
  | 0 => Exec.stop .cutOff
  | fuel + 1 => do
      write i dat
      let byteRead ← read i 0xffff
      let port ← getPort i
      if byteRead = Ps2keyboard.ack ∨ port.timedOut then pure ()
      else if byteRead = Ps2keyboard.resend then writeAck i dat fuel
      else pure ()

/-- The type that a device with this answer to `DEV_IDENTIFY` has. -/
def typeOf (infoLength : ℕ) (info0 info1 : Byte) : DeviceType :=
  if infoLength = 0 then .translationKeyboardAt
  else if info0 = 0x00 then .standardMouse
  else if info0 = 0x03 then .scrollMouse
  else if info0 = 0x04 then .fiveBtnMouse
  else if info0 = 0xab then
    if info1 = 0x41 ∨ info1 = 0xc1 then .translationMf2Keyboard
    else if info1 = 0x83 then .mf2Keyboard
    else .unknown
  else .unknown

def setPort (i : Bool) (f : Ps2Port → Ps2Port) : Prog Unit :=
  Ports.modifyVars fun v => v.setPort i f

/-- The results of `DEV_IDENTIFY`, with their number. -/
def readInfo (i : Bool) : Prog (ℕ × Byte × Byte) := do
  let info0 ← read i 0xffff
  let port ← getPort i
  if port.timedOut then pure (0, info0, 0)
  else do
    let info1 ← read i 0xffff
    let port ← getPort i
    if port.timedOut then pure (1, info0, info1) else pure (2, info0, info1)

/-- "Now enable it" -/
def enableConfig (i : Bool) (fuel : ℕ) : Prog Unit := do
  writeCommand comRead
  let config ← waitReadData fuel
  let port ← getPort i
  writeDoubleCommand fuel comWrite (config ||| if port.second then conEn2 else conEn1)

/-- `enabled = false` -/
def disable (i : Bool) : Prog Unit := setPort i fun p => { p with enabled := false }

/-- The end of `Ps2Port::init`, when the device has answered.  A new driver has in its fields what
is there. -/
def setDevice (fresh : Ps2keyboard.Driver) (i : Bool) (type : DeviceType) (fuel : ℕ) :
    Prog Unit := do
  setPort i fun p => { p with type := type }
  if type = .unknown then disable i
  else do
    setPort i fun p => if type.isKeyboard then { p with driver := some fresh } else p
    enableConfig i fuel

/-- `Ps2Port::init` -/
def portInit (fresh : Ps2keyboard.Driver) (i : Bool) (fuel : ℕ) : Prog Unit := do
  let port ← getPort i
  writeCommand (if port.second then comEn2 else comEn1)
  writeAck i devDisableScan fuel
  let port ← getPort i
  if port.timedOut then disable i
  else do
    writeAck i devIdentify fuel
    let port ← getPort i
    if port.timedOut then disable i
    else do
      let (infoLength, info0, info1) ← readInfo i
      setDevice fresh i (typeOf infoLength info0 info1) fuel

/-- The test of a port, and its `init`. -/
def testPort (fresh : Ps2keyboard.Driver) (i : Bool) (fuel : ℕ) : Prog Unit := do
  writeCommand (if i then comTest2 else comTest1)
  let result ← waitReadData fuel
  if result = 0 then do
    setPort i fun p => { p with enabled := true }
    portInit fresh i fuel
  else pure ()

/-- "Figure out if this is a dual channel port" -/
def findDual (fuel : ℕ) : Prog Unit := do
  writeCommand comEn2
  writeCommand comRead
  let config ← waitReadData fuel
  if config &&& conClock2 = 0 then
    Ports.modifyVars fun v => { v with dual := false, knownDual := true }
  else do
    Ports.modifyVars fun v => { v with dual := true }
    writeCommand comDis2
    Ports.modifyVars fun v => { v with knownDual := true }

/-! ### The drivers -/

def setDriver (i : Bool) (f : Ps2keyboard.Driver → Ps2keyboard.Driver) : Prog Unit :=
  setPort i fun p => { p with driver := p.driver.map f }

/-- `Ps2Port::handle`; the driver reads the byte that it handles. -/
def handle (i : Bool) : Prog Unit := do
  let port ← getPort i
  if port.enabled = true ∧ port.driver.isSome then do
    let input ← read i 0xffff
    setDriver i fun d => (Ps2keyboard.handle d input).1
  else pure ()

/-- The interrupts that come between two steps: IRQ 1 is the keyboard's, IRQ 12 the mouse's. -/
def interrupts : (fuel : ℕ) → Prog Unit
  | 0 => pure ()
  | fuel + 1 => do
      let irq ← Ports.inb .interrupts
      if irq = 1 then do
        handle false
        interrupts fuel
      else if irq = 12 then do
        handle true
        interrupts fuel
      else pure ()

/-- `while(last_input == -1)` -/
def waitInput (i : Bool) : (fuel : ℕ) → Prog Unit
  | 0 => Exec.stop .cutOff
  | fuel + 1 => do
      interrupts fuel
      let port ← getPort i
      if port.driver.any (·.lastInput = -1) then waitInput i fuel else pure ()

/-- The loop of `send`. -/
def sendLoop (i : Bool) (byte : Byte) : (fuel : ℕ) → Prog Unit
  | 0 => Exec.stop .cutOff
  | fuel + 1 => do
      interrupts fuel
      writeAmid (interrupts fuel) i byte
      waitInput i fuel
      let port ← getPort i
      if port.driver.any (·.lastInput = Ps2keyboard.resend.setWidth 16) then sendLoop i byte fuel
      else pure ()

/-- `Ps2KeyboardDriver::send` for one byte; nobody reads what it returns. -/
def send (i : Bool) (byte : Byte) (fuel : ℕ) : Prog Unit := do
  interrupts fuel
  setDriver i ({ · with lastInput := -1 })
  sendLoop i byte fuel

/-- `while (!self_test_passed)` -/
def waitPassed (i : Bool) : (fuel : ℕ) → Prog Unit
  | 0 => Exec.stop .cutOff
  | fuel + 1 => do
      interrupts fuel
      let port ← getPort i
      if port.driver.any (·.selfTestPassed) then pure () else waitPassed i fuel

/-- `Ps2KeyboardDriver::configure` -/
def configure (i : Bool) (fuel : ℕ) : Prog Unit := do
  setDriver i ({ · with key := 0 })
  interrupts fuel
  setDriver i ({ · with doubleCode := false })
  interrupts fuel
  setDriver i ({ · with lastKey := 0 })
  interrupts fuel
  setDriver i ({ · with selfTestPassed := false })
  send i 0xff fuel
  waitPassed i fuel
  send i 0xf0 fuel
  send i 0x02 fuel

/-- `if(ports[i].driver) ports[i].driver->configure()` -/
def configureDriver (i : Bool) (fuel : ℕ) : Prog Unit := do
  let port ← getPort i
  if port.driver.isSome then configure i fuel else pure ()

/-- "Configure them", behind the set-up of the interrupts. -/
def configurePorts (fuel : ℕ) : Prog Unit := do
  interrupts fuel
  configureDriver false fuel
  interrupts fuel
  let v ← Ports.vars
  if v.knownDual then configureDriver true fuel else pure ()

/-- `ps2::init` -/
def init (fresh : Ps2keyboard.Driver) (fuel : ℕ) : Prog Unit := do
  setPort false fun p => { p with second := false }
  setPort true fun p => { p with second := true }
  writeCommand comDis1
  writeCommand comDis2
  let _ ← readData
  writeCommand comRead
  let config ← waitReadData fuel
  Ports.modifyVars fun v =>
    if config &&& conClock2 = 0 then { v with dual := false, knownDual := true } else v
  writeDoubleCommand fuel comWrite (config &&& ~~~ (conEn1 ||| conEn2 ||| conTrans))
  writeCommand comTestcon
  let result ← waitReadData fuel
  if result ≠ 0x55 then Exec.stop (.selfTest result)
  else do
    let v ← Ports.vars
    if v.knownDual then pure () else findDual fuel
    testPort fresh false fuel
    testPort fresh true fuel
    configurePorts fuel

/-! ## The protocol -/

/-- What the next write to the data port is for. -/
inductive Pending
  /-- The first device. -/
  | none
  /-- The argument of `COM_WRITE`. -/
  | config
  /-- The second device, after `COM_NEXT2IN`. -/
  | second
  deriving DecidableEq, Repr

/-- What the next read of the data port answers. -/
inductive Awaiting
  | nothing
  | config
  | controllerTest
  | portTest (second : Bool)
  deriving DecidableEq, Repr

/-- What has been seen at the ports. -/
structure Monitor where
  pending : Pending
  awaiting : Awaiting
  /-- The input buffer was empty when the status was last read, after the last command. -/
  ready : Bool
  /-- The configuration that was last read. -/
  config : Byte
  /-- The controller has passed its test. -/
  selfTest : Bool
  /-- The ports that have passed their tests. -/
  tested : Bool → Bool

def Monitor.start : Monitor := ⟨.none, .nothing, false, 0, false, fun _ => false⟩

/-- Before its test the controller is configured with both ports disabled and without
translation, and then a port that has passed its test is enabled; all else is as it was read. -/
def Monitor.AllowsConfig (m : Monitor) (b : Byte) : Prop :=
  (m.selfTest = false ∧ b = m.config &&& ~~~ (conEn1 ||| conEn2 ||| conTrans)) ∨
  (m.selfTest = true ∧ m.tested false = true ∧ b = m.config ||| conEn1) ∨
  (m.selfTest = true ∧ m.tested true = true ∧ b = m.config ||| conEn2)

instance (m : Monitor) (b : Byte) : Decidable (m.AllowsConfig b) :=
  inferInstanceAs (Decidable (_ ∨ _ ∨ _))

/-- A command, which is given when the one before it has its argument and its answer. A port is
not tested before the controller. -/
def Monitor.command (m : Monitor) (com : Byte) : Option Monitor :=
  if m.pending ≠ .none ∨ m.awaiting ≠ .nothing then none
  else
    let m := { m with ready := false }
    if com = comWrite then some { m with pending := .config }
    else if com = comNext2in then some { m with pending := .second }
    else if com = comRead then some { m with awaiting := .config }
    else if com = comTestcon then some { m with awaiting := .controllerTest }
    else if com = comTest1 then
      if m.selfTest then some { m with awaiting := .portTest false } else none
    else if com = comTest2 then
      if m.selfTest then some { m with awaiting := .portTest true } else none
    else some m

/-- A write to the data port. A device is only sent a byte when its port has passed its test. -/
def Monitor.data (m : Monitor) (b : Byte) : Option Monitor :=
  if m.awaiting ≠ .nothing then none
  else
    match m.pending with
    | .none => if m.tested false then some m else none
    | .second => if m.tested true then some { m with pending := .none } else none
    | .config =>
        if m.ready = true ∧ m.AllowsConfig b then some { m with pending := .none } else none

/-- A read of the data port. -/
def Monitor.answer (m : Monitor) (b : Byte) : Monitor :=
  match m.awaiting with
  | .nothing => m
  | .config => { m with awaiting := .nothing, config := b }
  | .controllerTest => { m with awaiting := .nothing, selfTest := b = 0x55 }
  | .portTest second =>
      { m with awaiting := .nothing, tested := Function.update m.tested second (b = 0) }

/-- The protocol of the controller. -/
def accept (m : Monitor) : Ports.Event Port Byte → Option Monitor
  | .inp .status s => some { m with ready := s &&& statInbuff = 0 }
  | .inp .data b => some (m.answer b)
  | .inp .interrupts _ => some m
  | .out .status com => m.command com
  | .out .data b => m.data b
  | .out .interrupts _ => none

/-! ## The programs follow the protocol -/

/-- How far `init` has come with a port. -/
inductive Stage
  | untouched
  /-- It has passed its test. -/
  | passed
  /-- Its device is known. -/
  | known
  | done
  /-- It has a driver. -/
  | driven
  /-- Its keyboard has passed its test. -/
  | ready
  | configured
  deriving DecidableEq

/-- What is known of a port, and of its test. -/
def Stage.Holds (tested : Bool) (p : Ps2Port) : Stage → Prop
  | .untouched => p.enabled = false ∧ p.driver = none
  | .passed => tested = true ∧ p.enabled = true ∧ p.driver = none
  | .known => tested = true ∧ p.enabled = true ∧ (p.driver.isSome → p.type.isKeyboard = true)
  | .done => (p.enabled = true → tested = true) ∧
      (p.driver.isSome → p.enabled = true ∧ p.type.isKeyboard = true)
  | .driven => tested = true ∧ p.enabled = true ∧ p.type.isKeyboard = true
  | .ready => tested = true ∧ p.enabled = true ∧ p.type.isKeyboard = true ∧
      ∀ d, p.driver = some d → d.selfTestPassed = true
  | .configured => (p.enabled = true → tested = true) ∧ ∀ d, p.driver = some d →
      p.enabled = true ∧ p.type.isKeyboard = true ∧ d.selfTestPassed = true

/-- The test of a port of this stage has been passed. -/
def Stage.isTested : Stage → Bool
  | .passed | .known | .driven | .ready => true
  | .untouched | .done | .configured => false

/-- How far `init` has come with the controller. -/
inductive Phase
  | start
  /-- It has passed its test. -/
  | tested
  /-- `known_dual` is set. -/
  | dual
  deriving DecidableEq

def Phase.isTested : Phase → Bool
  | .start => false
  | .tested | .dual => true

/-- The controller and the ports between the events. -/
structure Core (phase : Phase) (st : Bool → Stage) (m : Monitor) (v : Vars) : Prop where
  selfTest : m.selfTest = phase.isTested
  knownDual : phase = .dual → v.knownDual = true
  second : ∀ i, (v.ports i).second = i
  ports : ∀ i, (st i).Holds (m.tested i) (v.ports i)

/-- No command waits for its answer. -/
structure Quiet (phase : Phase) (st : Bool → Stage) (pending : Pending) (m : Monitor) (v : Vars) :
    Prop extends Core phase st m v where
  pending : m.pending = pending
  awaiting : m.awaiting = .nothing

/-- No command waits for its argument or its answer. -/
abbrev Idle (phase : Phase) (st : Bool → Stage) (m : Monitor) (v : Vars) : Prop :=
  Quiet phase st .none m v

/-- A command waits for its answer. -/
structure Asked (phase : Phase) (st : Bool → Stage) (awaiting : Awaiting) (m : Monitor)
    (v : Vars) : Prop extends Core phase st m v where
  pending : m.pending = .none
  awaiting : m.awaiting = awaiting

/-- Why `init` ends: what its panic says of the protocol. -/
def Ends : Halt → Monitor → Prop
  | .selfTest result, m => result ≠ 0x55 ∧ m.selfTest = false
  | .cutOff, _ => True

variable {phase : Phase} {st : Bool → Stage} {stage : Stage} {pending : Pending}
  {m m' : Monitor} {v v' : Vars} {i : Bool} {fuel n : ℕ} {b com dat : Byte} {α : Type}
  {f : Ps2Port → Ps2Port} {fresh : Ps2keyboard.Driver} {between : Prog Unit}

/-- The rules for what `init` does. -/
abbrev Follows (P : Monitor → Vars → Prop) (x : Prog α) (Q : α → Monitor → Vars → Prop) : Prop :=
  Ports.Follows accept Monitor.start P x Q Ends

@[simp]
theorem Vars.setPort_self : (v.setPort i f).ports i = f (v.ports i) := Function.update_self ..

theorem Vars.setPort_of_ne {j : Bool} (h : j ≠ i) : (v.setPort i f).ports j = v.ports j :=
  Function.update_of_ne h ..

theorem Core.congr (h : Core phase st m v) (hself : m'.selfTest = m.selfTest)
    (htested : m'.tested = m.tested) : Core phase st m' v :=
  ⟨hself.trans h.selfTest, h.knownDual, h.second, fun i => htested ▸ h.ports i⟩

theorem Core.setPort (h : Core phase st m v) (hsecond : (f (v.ports i)).second = i)
    (hstage : stage.Holds (m.tested i) (f (v.ports i))) :
    Core phase (Function.update st i stage) m (v.setPort i f) := by
  refine ⟨h.selfTest, h.knownDual, fun j => ?_, fun j => ?_⟩
  all_goals by_cases heq : j = i
  · rw [heq, Vars.setPort_self, hsecond]
  · rw [Vars.setPort_of_ne heq, h.second]
  · rw [heq, Vars.setPort_self, Function.update_self]
    exact hstage
  · rw [Vars.setPort_of_ne heq, Function.update_of_ne heq]
    exact h.ports j

theorem Core.setTimedOut (h : Core phase st m v) (i b : Bool) :
    Core phase st m (v.setPort i fun p => { p with timedOut := b }) := by
  have hstage : (st i).Holds (m.tested i) { v.ports i with timedOut := b } := by
    have hport := h.ports i
    cases hst : st i <;> rw [hst] at hport <;> exact hport
  have hset := h.setPort (f := fun p => { p with timedOut := b }) (h.second i) hstage
  rwa [Function.update_eq_self] at hset

theorem Core.tested (h : Core phase st m v) (hst : (st i).isTested = true) :
    m.tested i = true := by
  have hport := h.ports i
  cases hs : st i <;> rw [hs] at hport hst
  · cases hst
  · exact hport.1
  · exact hport.1
  · cases hst
  · exact hport.1
  · exact hport.1
  · cases hst

/-- A port may be at another stage, too. -/
theorem Core.setStage (h : Core phase st m v) (hstage : stage.Holds (m.tested i) (v.ports i)) :
    Core phase (Function.update st i stage) m v := by
  have hset := h.setPort (f := id) (h.second i) hstage
  rwa [Vars.setPort, id, Function.update_eq_self] at hset

/-- A driver that does not forget the test of its keyboard. -/
theorem Stage.Holds.mapDriver {tested : Bool} {p : Ps2Port}
    {f : Ps2keyboard.Driver → Ps2keyboard.Driver} (h : stage.Holds tested p)
    (hf : stage = .driven ∨ ∀ d, d.selfTestPassed = true → (f d).selfTestPassed = true) :
    stage.Holds tested { p with driver := p.driver.map f } := by
  have hpassed : stage ≠ .driven → ∀ d, p.driver.map f = some d →
      ∃ d', p.driver = some d' ∧ (d'.selfTestPassed = true → d.selfTestPassed = true) := by
    intro hne d hd
    obtain ⟨d', hd', rfl⟩ := Option.map_eq_some_iff.mp hd
    exact ⟨d', hd', (hf.resolve_left hne) d'⟩
  cases stage with
  | untouched | passed =>
    simp only [Stage.Holds] at h ⊢
    simp [h]
  | known | done =>
    simp only [Stage.Holds, Option.isSome_map] at h ⊢
    exact h
  | driven => exact h
  | ready =>
    refine ⟨h.1, h.2.1, h.2.2.1, fun d hd => ?_⟩
    obtain ⟨d', hd', hkeeps⟩ := hpassed (by simp) d hd
    exact hkeeps (h.2.2.2 d' hd')
  | configured =>
    refine ⟨h.1, fun d hd => ?_⟩
    obtain ⟨d', hd', hkeeps⟩ := hpassed (by simp) d hd
    obtain ⟨henabled, hkey, htest⟩ := h.2 d' hd'
    exact ⟨henabled, hkey, hkeeps htest⟩

/-- Waiting changes nothing but what is known of the input buffer. -/
theorem follows_waitInbuff {P : Monitor → Vars → Prop}
    (hP : ∀ m v b, P m v → P { m with ready := b } v) :
    Follows P (waitInbuff fuel) fun _ m v => P m v ∧ m.ready = true := by
  induction fuel with
  | zero => exact .stop fun _ _ _ => trivial
  | succ fuel ih =>
    refine .bind (Q := fun s m v => P m v ∧ m.ready = decide (s &&& statInbuff = 0)) ?_ fun s => ?_
    · exact .inb fun m v s h => ⟨_, rfl, hP m v _ h, rfl⟩
    · refine .ite (fun hbusy => ?_) fun hempty => ?_
      · exact ih.mono (fun m v h => h.1) fun _ m v h => h
      · refine .pure fun m v h => ⟨h.1, ?_⟩
        rw [h.2, decide_eq_true (not_not.mp hempty)]

/-- A read of the data port that no command awaits. -/
theorem follows_readLoop : Follows (Quiet phase st pending) (readLoop i n)
    fun _ => Quiet phase st pending := by
  induction n with
  | zero => exact .stop fun _ _ _ => trivial
  | succ n ih =>
    refine .bind (Q := fun _ => Quiet phase st pending) ?_ fun s => ?_
    · exact .inb fun m v s h => ⟨_, rfl, h.congr rfl rfl, h.pending, h.awaiting⟩
    · refine .ite (fun _ => ?_) fun _ => ?_
      · refine .ite (fun _ => ?_) fun _ => ih
        refine .bind (Q := fun _ => Quiet phase st pending) ?_ fun _ => .pure fun _ _ h => h
        exact .modifyVars fun m v h => ⟨h.setTimedOut i true, h.pending, h.awaiting⟩
      · refine .inb fun m v b h => ⟨m, ?_, h⟩
        simp [accept, Monitor.answer, h.awaiting]

theorem follows_read : Follows (Quiet phase st pending) (read i n)
    fun _ => Quiet phase st pending := by
  refine .bind (Q := fun _ => Quiet phase st pending) ?_ fun _ => follows_readLoop
  exact .modifyVars fun m v h => ⟨h.setTimedOut i false, h.pending, h.awaiting⟩

/-- The variables of a port, as they are. -/
theorem follows_getPort_eq {P : Monitor → Vars → Prop} :
    Follows P (getPort i) fun p m v => P m v ∧ v.ports i = p := by
  refine .bind (Q := fun w m v => P m v ∧ v = w) ?_ fun w => ?_
  · exact .vars fun m v h => ⟨h, rfl⟩
  · exact .pure fun m v h => ⟨h.1, h.2 ▸ rfl⟩

theorem follows_getPort :
    Follows (Idle phase st) (getPort i) fun p m v => Idle phase st m v ∧ p.second = i := by
  refine .bind (Q := fun w m v => Idle phase st m v ∧ (w.ports i).second = i) ?_ fun w => ?_
  · exact .vars fun m v h => ⟨h, h.second i⟩
  · exact .pure fun m v h => h

/-- The commands without an argument or an answer. -/
theorem follows_command (hcom : com = comDis1 ∨ com = comDis2 ∨ com = comEn1 ∨ com = comEn2) :
    Follows (Idle phase st) (writeCommand com) fun _ => Idle phase st := by
  refine .outb fun m v h => ⟨{ m with ready := false }, ?_, h.congr rfl rfl, h.pending, h.awaiting⟩
  rcases hcom with rfl | rfl | rfl | rfl
  all_goals
    simp [accept, Monitor.command, h.pending, h.awaiting, comDis1, comDis2, comEn1, comEn2,
      comWrite, comNext2in, comRead, comTestcon, comTest1, comTest2]

/-- A command that is answered. -/
theorem follows_ask {awaiting : Awaiting}
    (hcom : ∀ m : Monitor, m.pending = .none → m.awaiting = .nothing → m.selfTest = phase.isTested →
      m.command com = some { m with ready := false, awaiting }) :
    Follows (Idle phase st) (writeCommand com) fun _ => Asked phase st awaiting := by
  refine .outb fun m v h => ⟨{ m with ready := false, awaiting }, ?_, h.congr rfl rfl, h.pending,
    rfl⟩
  exact hcom m h.pending h.awaiting h.selfTest

/-- The answer to a command. -/
theorem follows_answer {awaiting : Awaiting} {Q : Byte → Monitor → Vars → Prop}
    (hQ : ∀ m v b, Asked phase st awaiting m v → Q b (m.answer b) v) :
    Follows (Asked phase st awaiting) (waitReadData fuel) Q := by
  refine .bind (follows_waitInbuff ?_) fun _ => ?_
  · intro m v b h
    exact ⟨h.congr rfl rfl, h.pending, h.awaiting⟩
  · exact .inb fun m v b h => ⟨_, rfl, hQ m v b h.1⟩

theorem follows_askConfig :
    Follows (Idle phase st) (writeCommand comRead) fun _ => Asked phase st .config := by
  apply follows_ask
  intro m hpending hawaiting _
  simp [Monitor.command, hpending, hawaiting, comWrite, comNext2in, comRead]

/-- The configuration is read. -/
theorem follows_readConfig : Follows (Asked phase st .config) (waitReadData fuel)
    fun b m v => Idle phase st m v ∧ m.config = b := by
  apply follows_answer
  intro m v b h
  have hanswer : m.answer b = { m with awaiting := .nothing, config := b } := by
    simp [Monitor.answer, h.awaiting]
  rw [hanswer]
  exact ⟨⟨h.congr rfl rfl, h.pending, rfl⟩, rfl⟩

/-- A configuration is written that the protocol allows. -/
theorem follows_writeConfig : Follows (fun m v => Idle phase st m v ∧ m.AllowsConfig b)
    (writeDoubleCommand fuel comWrite b) fun _ => Idle phase st := by
  refine .bind (Q := fun _ m v => Core phase st m v ∧ m.pending = .config ∧ m.awaiting = .nothing ∧
    m.AllowsConfig b) ?_ fun _ => .bind (follows_waitInbuff ?_) fun _ => ?_
  · refine .outb fun m v h => ⟨{ m with ready := false, pending := .config }, ?_,
      h.1.congr rfl rfl, rfl, h.1.awaiting, h.2⟩
    simp [accept, Monitor.command, h.1.pending, h.1.awaiting]
  · intro m v b h
    exact ⟨h.1.congr rfl rfl, h.2⟩
  · refine .outb fun m v h => ⟨{ m with pending := .none }, ?_, h.1.1.congr rfl rfl, rfl, h.1.2.2.1⟩
    have hdata : m.data b =
        if m.ready = true ∧ m.AllowsConfig b then some { m with pending := .none } else none := by
      simp [Monitor.data, h.1.2.1, h.1.2.2.1]
    rw [accept, hdata, if_pos ⟨h.2, h.1.2.2.2⟩]

/-- A byte for a device. -/
theorem follows_writeAmid (hst : (st i).isTested = true)
    (hbetween : Follows (Quiet phase st .second) between fun _ => Quiet phase st .second) :
    Follows (Idle phase st) (writeAmid between i dat) fun _ => Idle phase st := by
  refine .bind follows_getPort fun port => .fact fun hsecond => ?_
  refine .ite (fun hsnd => ?_) fun hfst => ?_
  · refine .bind (Q := fun _ => Quiet phase st .second) ?_ fun _ => .bind hbetween fun _ => ?_
    · refine .outb fun m v h => ⟨{ m with ready := false, pending := .second }, ?_,
        h.congr rfl rfl, rfl, h.awaiting⟩
      simp [accept, Monitor.command, h.pending, h.awaiting, comNext2in, comWrite]
    · refine .outb fun m v h => ⟨{ m with pending := .none }, ?_, h.congr rfl rfl, rfl, h.awaiting⟩
      have htested : m.tested true = true := (hsecond.symm.trans hsnd) ▸ h.tested hst
      simp [accept, Monitor.data, h.pending, h.awaiting, htested]
  · refine .outb fun m v h => ⟨m, ?_, h⟩
    have htested : m.tested false = true :=
      (hsecond.symm.trans (eq_false_of_ne_true hfst)) ▸ h.tested hst
    simp [accept, Monitor.data, h.pending, h.awaiting, htested]

theorem follows_write (hst : (st i).isTested = true) :
    Follows (Idle phase st) (write i dat) fun _ => Idle phase st :=
  follows_writeAmid hst (.pure fun _ _ h => h)

theorem follows_writeAck (hst : (st i).isTested = true) :
    Follows (Idle phase st) (writeAck i dat fuel) fun _ => Idle phase st := by
  induction fuel with
  | zero => exact .stop fun _ _ _ => trivial
  | succ fuel ih =>
    refine .bind (follows_write hst) fun _ => .bind follows_read fun byteRead =>
      .bind follows_getPort fun port => .fact fun _ => ?_
    refine .ite (fun _ => .pure fun _ _ h => h) fun _ => ?_
    exact .ite (fun _ => ih) fun _ => .pure fun _ _ h => h

theorem follows_readInfo : Follows (Idle phase st) (readInfo i) fun _ => Idle phase st := by
  refine .bind follows_read fun info0 => .bind follows_getPort fun _ => .fact fun _ => ?_
  refine .ite (fun _ => .pure fun _ _ h => h) fun _ => ?_
  refine .bind follows_read fun info1 => .bind follows_getPort fun _ => .fact fun _ => ?_
  exact .ite (fun _ => .pure fun _ _ h => h) fun _ => .pure fun _ _ h => h

/-- A port that has passed its test is enabled. -/
theorem follows_enableConfig (hst : (st i).isTested = true) :
    Follows (Idle .dual st) (enableConfig i fuel) fun _ => Idle .dual st := by
  refine .bind follows_askConfig fun _ => .bind follows_readConfig fun config => ?_
  refine .bind (Q := fun p m v => (Idle .dual st m v ∧ m.config = config) ∧ p.second = i) ?_
    fun p => .fact fun hsecond => ?_
  · refine .bind (Q := fun w m v => (Idle .dual st m v ∧ m.config = config) ∧
      (w.ports i).second = i) ?_ fun w => .pure fun _ _ h => h
    exact .vars fun m v h => ⟨h, h.1.second i⟩
  · refine follows_writeConfig.mono (fun m v h => ⟨h.1, ?_⟩) fun _ _ _ h => h
    have htested := h.1.tested hst
    rw [hsecond, ← h.2]
    cases i with
    | false => exact .inr (.inl ⟨h.1.selfTest, htested, rfl⟩)
    | true => exact .inr (.inr ⟨h.1.selfTest, htested, rfl⟩)

theorem follows_setPort (hsecond : ∀ p : Ps2Port, (f p).second = p.second)
    (hstage : ∀ tested p, (st i).Holds tested p → stage.Holds tested (f p)) :
    Follows (Idle phase st) (setPort i f) fun _ => Idle phase (Function.update st i stage) := by
  refine .modifyVars fun m v h => ⟨h.setPort ?_ ?_, h.pending, h.awaiting⟩
  · rw [hsecond, h.second]
  · exact hstage _ _ (h.ports i)

theorem follows_disable (hst : st i = .passed) :
    Follows (Idle phase st) (disable i) fun _ => Idle phase (Function.update st i .done) := by
  refine follows_setPort (fun _ => rfl) fun tested p h => ?_
  rw [hst] at h
  refine ⟨fun henabled => ?_, fun hdriver => ?_⟩
  · cases henabled
  · rw [h.2.2] at hdriver
    cases hdriver

/-- Only a keyboard has a driver. -/
theorem follows_setDevice {type : DeviceType} (hst : st i = .passed) :
    Follows (Idle .dual st) (setDevice fresh i type fuel)
      fun _ => Idle .dual (Function.update st i .done) := by
  refine .bind (Q := fun _ m v => Idle .dual st m v ∧ (v.ports i).type = type) ?_ fun _ => ?_
  · refine .modifyVars fun m v h => ⟨?_, by simp⟩
    have hset : Core .dual (Function.update st i (st i)) m
        (v.setPort i fun p => { p with type := type }) := by
      refine h.setPort (h.second i) ?_
      have hport := h.ports i
      rw [hst] at hport ⊢
      exact hport
    rw [Function.update_eq_self] at hset
    exact ⟨hset, h.pending, h.awaiting⟩
  refine .ite (fun _ => ?_) fun _ => ?_
  · exact (follows_disable hst).mono (fun _ _ h => h.1) fun _ _ _ h => h
  refine .bind (Q := fun _ => Idle .dual (Function.update st i .known)) ?_ fun _ => ?_
  · refine .modifyVars fun m v h => ⟨h.1.setPort ?_ ?_, h.1.pending, h.1.awaiting⟩
    · split_ifs <;> exact h.1.second i
    · have hport := h.1.ports i
      rw [hst] at hport
      split_ifs with hkey
      · exact ⟨hport.1, hport.2.1, fun _ => h.2 ▸ hkey⟩
      · refine ⟨hport.1, hport.2.1, fun hdriver => ?_⟩
        rw [hport.2.2] at hdriver
        cases hdriver
  have hknown : (Function.update st i Stage.known i).isTested = true := by
    rw [Function.update_self, Stage.isTested]
  refine (follows_enableConfig hknown).mono (fun _ _ h => h) fun _ m v h => ?_
  refine ⟨⟨h.selfTest, h.knownDual, h.second, fun j => ?_⟩, h.pending, h.awaiting⟩
  have hport := h.ports j
  by_cases heq : j = i
  · subst heq
    rw [Function.update_self] at hport ⊢
    exact ⟨fun _ => hport.1, fun hdriver => ⟨hport.2.1, hport.2.2 hdriver⟩⟩
  · rwa [Function.update_of_ne heq] at hport ⊢

theorem follows_portInit (hst : st i = .passed) :
    Follows (Idle .dual st) (portInit fresh i fuel)
      fun _ => Idle .dual (Function.update st i .done) := by
  have htested : (st i).isTested = true := by rw [hst, Stage.isTested]
  refine .bind follows_getPort fun port => .fact fun _ => .bind (follows_command ?_) fun _ => ?_
  · split_ifs <;> simp
  refine .bind (follows_writeAck htested) fun _ => .bind follows_getPort fun _ => .fact fun _ => ?_
  refine .ite (fun _ => follows_disable hst) fun _ => ?_
  refine .bind (follows_writeAck htested) fun _ => .bind follows_getPort fun _ => .fact fun _ => ?_
  refine .ite (fun _ => follows_disable hst) fun _ => ?_
  exact .bind follows_readInfo fun _ => follows_setDevice hst

/-- The answer to the test of a port. -/
theorem follows_readTest (hst : st i = .untouched) :
    Follows (Asked .dual st (.portTest i)) (waitReadData fuel)
      fun b m v => Idle .dual st m v ∧ (b = 0 → m.tested i = true) := by
  apply follows_answer
  intro m v b h
  have hanswer : m.answer b =
      { m with awaiting := .nothing, tested := Function.update m.tested i (b = 0) } := by
    simp [Monitor.answer, h.awaiting]
  rw [hanswer]
  refine ⟨⟨⟨h.selfTest, h.knownDual, h.second, fun j => ?_⟩, h.pending, rfl⟩,
    fun hb => by simp [hb]⟩
  have hport := h.ports j
  by_cases heq : j = i
  · subst heq
    rw [hst] at hport ⊢
    exact hport
  · simpa only [Function.update_of_ne heq] using hport

theorem follows_testPort (hst : st i = .untouched) :
    Follows (Idle .dual st) (testPort fresh i fuel)
      fun _ => Idle .dual (Function.update st i .done) := by
  refine .bind (Q := fun _ => Asked .dual st (.portTest i)) (follows_ask ?_) fun _ => ?_
  · intro m hpending hawaiting hself
    cases i <;> simp [Monitor.command, hpending, hawaiting, hself, Phase.isTested, comTest1,
      comTest2, comWrite, comNext2in, comRead, comTestcon]
  refine .bind (follows_readTest hst) fun result => .ite (fun hzero => ?_) fun _ => ?_
  · refine .bind (Q := fun _ => Idle .dual (Function.update st i .passed)) ?_ fun _ => ?_
    · refine .modifyVars fun m v h => ⟨h.1.setPort (h.1.second i) ?_, h.1.pending, h.1.awaiting⟩
      have hport := h.1.ports i
      rw [hst] at hport
      exact ⟨h.2 hzero, rfl, hport.2⟩
    · refine (follows_portInit (Function.update_self ..)).mono (fun _ _ h => h) fun _ _ _ h => ?_
      rwa [Function.update_idem] at h
  · refine .pure fun m v h => ⟨⟨h.1.selfTest, h.1.knownDual, h.1.second, fun j => ?_⟩,
      h.1.pending, h.1.awaiting⟩
    have hport := h.1.ports j
    by_cases heq : j = i
    · subst heq
      rw [hst] at hport
      rw [Function.update_self]
      refine ⟨fun henabled => ?_, fun hdriver => ?_⟩
      · exact absurd (hport.1.symm.trans henabled) Bool.false_ne_true
      · rw [hport.2] at hdriver
        cases hdriver
    · rwa [Function.update_of_ne heq]

/-- `dual` and `known_dual` are no part of the protocol. -/
theorem follows_modifyDual {phase' : Phase} {g : Vars → Vars} (hg : ∀ v, (g v).ports = v.ports)
    (htest : phase'.isTested = phase.isTested)
    (hdual : ∀ v : Vars, (phase = .dual → v.knownDual = true) → phase' = .dual →
      (g v).knownDual = true) :
    Follows (Idle phase st) (Ports.modifyVars g) fun _ => Idle phase' st := by
  refine .modifyVars fun m v h =>
    ⟨⟨h.selfTest.trans htest.symm, hdual v h.knownDual, ?_, ?_⟩, h.pending, h.awaiting⟩
  · rw [hg]
    exact h.second
  · rw [hg]
    exact h.ports

theorem follows_findDual : Follows (Idle .tested st) (findDual fuel) fun _ => Idle .dual st := by
  refine .bind (follows_command (by simp)) fun _ => .bind follows_askConfig fun _ =>
    .bind (Q := fun _ => Idle .tested st) ?_ fun config => ?_
  · exact follows_readConfig.mono (fun _ _ h => h) fun _ _ _ h => h.1
  refine .ite (fun _ => follows_modifyDual (fun _ => rfl) rfl fun _ _ _ => rfl) fun _ => ?_
  have hset : Follows (Idle .tested st)
      (Ports.modifyVars fun v => { v with dual := true }) fun _ => Idle .tested st :=
    follows_modifyDual (fun _ => rfl) rfl fun _ h => h
  refine .bind hset fun _ => .bind (follows_command (by simp)) fun _ => ?_
  exact follows_modifyDual (fun _ => rfl) rfl fun _ _ _ => rfl

/-- Before the test of the controller. -/
theorem follows_setConfig {config : Byte} :
    Follows (fun m v => Idle .start st m v ∧ m.config = config)
    (writeDoubleCommand fuel comWrite (config &&& ~~~ (conEn1 ||| conEn2 ||| conTrans)))
    fun _ => Idle .start st := by
  refine follows_writeConfig.mono (fun m v h => ⟨h.1, .inl ⟨h.1.selfTest, ?_⟩⟩) fun _ _ _ h => h
  rw [h.2]

/-- The answer to the test of the controller. -/
theorem follows_readSelfTest : Follows (Asked .start st .controllerTest) (waitReadData fuel)
    fun b => Idle (if b = 0x55 then .tested else .start) st := by
  apply follows_answer
  intro m v b h
  have hanswer : m.answer b = { m with awaiting := .nothing, selfTest := b = 0x55 } := by
    simp [Monitor.answer, h.awaiting]
  rw [hanswer]
  split_ifs with hb
  · exact ⟨⟨decide_eq_true hb, nofun, h.second, h.ports⟩, h.pending, rfl⟩
  · exact ⟨⟨decide_eq_false hb, nofun, h.second, h.ports⟩, h.pending, rfl⟩

/-- Discarding what is in the buffer. -/
theorem follows_discard : Follows (Idle phase st) readData fun _ => Idle phase st := by
  refine .inb fun m v b h => ⟨m, ?_, h⟩
  simp [accept, Monitor.answer, h.awaiting]

/-- The variables before the first call, with the ports numbered. -/
def Start (m : Monitor) (v : Vars) : Prop := m = Monitor.start ∧ v = Vars.zero

/-- Both ports are tested. -/
theorem follows_tests : Follows (Idle .dual fun _ => .untouched)
    (testPort fresh false fuel >>= fun _ => testPort fresh true fuel)
    fun _ => Idle .dual fun _ => .done := by
  refine .bind (follows_testPort rfl) fun _ => ?_
  refine (follows_testPort (Function.update_of_ne (by decide) ..)).mono (fun _ _ h => h) ?_
  intro _ m v h
  have hdone : Function.update (Function.update (fun _ => Stage.untouched) false .done) true .done =
      fun _ => Stage.done := by
    funext i
    cases i <;> rfl
  rwa [hdone] at h

/-! ### Configuring the keyboards -/

theorem follows_setDriver {f : Ps2keyboard.Driver → Ps2keyboard.Driver}
    (hf : st i = .driven ∨ ∀ d, d.selfTestPassed = true → (f d).selfTestPassed = true) :
    Follows (Quiet phase st pending) (setDriver i f) fun _ => Quiet phase st pending := by
  refine .modifyVars fun m v h => ⟨?_, h.pending, h.awaiting⟩
  have hset := h.setPort (i := i) (f := fun p => { p with driver := p.driver.map f }) (h.second i)
    ((h.ports i).mapDriver hf)
  rwa [Function.update_eq_self] at hset

/-- An interrupt reads the data port, which no command waits for. -/
theorem follows_handle : Follows (Quiet phase st pending) (handle i)
    fun _ => Quiet phase st pending := by
  refine .bind (Q := fun _ => Quiet phase st pending) ?_ fun port => ?_
  · exact follows_getPort_eq.mono (fun _ _ h => h) fun _ _ _ h => h.1
  refine .ite (fun _ => .bind follows_read fun input => ?_) fun _ => .pure fun _ _ h => h
  exact follows_setDriver (.inr fun d hd => Ps2keyboard.handle_selfTestPassed hd)

theorem follows_interrupts : Follows (Quiet phase st pending) (interrupts fuel)
    fun _ => Quiet phase st pending := by
  induction fuel with
  | zero => exact .pure fun _ _ h => h
  | succ fuel ih =>
    refine .bind (Q := fun _ => Quiet phase st pending) (.inb fun m v b h => ⟨m, rfl, h⟩)
      fun irq => ?_
    refine .ite (fun _ => .bind follows_handle fun _ => ih) fun _ => ?_
    exact .ite (fun _ => .bind follows_handle fun _ => ih) fun _ => .pure fun _ _ h => h

theorem follows_waitInput : Follows (Idle phase st) (waitInput i fuel) fun _ => Idle phase st := by
  induction fuel with
  | zero => exact .stop fun _ _ _ => trivial
  | succ fuel ih =>
    refine .bind follows_interrupts fun _ => .bind follows_getPort fun port => .fact fun _ => ?_
    exact .ite (fun _ => ih) fun _ => .pure fun _ _ h => h

theorem follows_sendLoop (hst : (st i).isTested = true) :
    Follows (Idle phase st) (sendLoop i b fuel) fun _ => Idle phase st := by
  induction fuel with
  | zero => exact .stop fun _ _ _ => trivial
  | succ fuel ih =>
    refine .bind follows_interrupts fun _ =>
      .bind (follows_writeAmid hst follows_interrupts) fun _ => .bind follows_waitInput fun _ =>
      .bind follows_getPort fun port => .fact fun _ => ?_
    exact .ite (fun _ => ih) fun _ => .pure fun _ _ h => h

theorem follows_send (hst : (st i).isTested = true) :
    Follows (Idle phase st) (send i b fuel) fun _ => Idle phase st :=
  .bind follows_interrupts fun _ => .bind (follows_setDriver (.inr fun _ h => h)) fun _ =>
    follows_sendLoop hst

/-- The driver goes on when its keyboard has passed its test. -/
theorem follows_waitPassed (hst : st i = .driven) :
    Follows (Idle phase st) (waitPassed i fuel)
      fun _ => Idle phase (Function.update st i .ready) := by
  induction fuel with
  | zero => exact .stop fun _ _ _ => trivial
  | succ fuel ih =>
    refine .bind follows_interrupts fun _ => .bind follows_getPort_eq fun port => ?_
    refine .ite (fun hpassed => ?_) fun _ => ih.mono (fun _ _ h => h.1) fun _ _ _ h => h
    refine .pure fun m v h => ⟨h.1.setStage ?_, h.1.pending, h.1.awaiting⟩
    have hport := h.1.ports i
    rw [hst] at hport
    refine ⟨hport.1, hport.2.1, hport.2.2, fun d hd => ?_⟩
    rw [← h.2, hd] at hpassed
    exact hpassed

theorem follows_configure (hst : st i = .driven) :
    Follows (Idle phase st) (configure i fuel)
      fun _ => Idle phase (Function.update st i .ready) := by
  have htested : (st i).isTested = true := by rw [hst, Stage.isTested]
  have hready : (Function.update st i Stage.ready i).isTested = true := by
    rw [Function.update_self, Stage.isTested]
  exact .bind (follows_setDriver (.inl hst)) fun _ => .bind follows_interrupts fun _ =>
    .bind (follows_setDriver (.inl hst)) fun _ => .bind follows_interrupts fun _ =>
    .bind (follows_setDriver (.inl hst)) fun _ => .bind follows_interrupts fun _ =>
    .bind (follows_setDriver (.inl hst)) fun _ => .bind (follows_send htested) fun _ =>
    .bind (follows_waitPassed hst) fun _ => .bind (follows_send hready) fun _ =>
    follows_send hready

/-- A port with a driver is configured, and one without is left as it is. -/
theorem follows_configureDriver (hst : st i = .done) :
    Follows (Idle phase st) (configureDriver i fuel)
      fun _ => Idle phase (Function.update st i .configured) := by
  refine .bind follows_getPort_eq fun port => .ite (fun hsome => ?_) fun hnone => ?_
  · have hconfigure : Follows (Idle phase (Function.update st i .driven)) (configure i fuel)
        fun _ => Idle phase (Function.update (Function.update st i .driven) i .ready) :=
      follows_configure (Function.update_self ..)
    refine hconfigure.mono (fun m v h => ?_) fun _ m v h => ?_
    · have hport := h.1.ports i
      rw [hst] at hport
      obtain ⟨henabled, hkey⟩ := hport.2 (h.2 ▸ hsome)
      exact ⟨h.1.setStage ⟨hport.1 henabled, henabled, hkey⟩, h.1.pending, h.1.awaiting⟩
    · rw [Function.update_idem] at h
      have hport := h.ports i
      rw [Function.update_self] at hport
      have hholds : Stage.configured.Holds (m.tested i) (v.ports i) :=
        ⟨fun _ => hport.1, fun d hd => ⟨hport.2.1, hport.2.2.1, hport.2.2.2 d hd⟩⟩
      have hset := h.setStage hholds
      rw [Function.update_idem] at hset
      exact ⟨hset, h.pending, h.awaiting⟩
  · refine .pure fun m v h => ⟨h.1.setStage ?_, h.1.pending, h.1.awaiting⟩
    have hport := h.1.ports i
    rw [hst] at hport
    refine ⟨hport.1, fun d hd => ?_⟩
    rw [← h.2, hd] at hnone
    exact absurd rfl hnone

theorem follows_configurePorts : Follows (Idle .dual fun _ => .done) (configurePorts fuel)
    fun _ => Idle .dual fun _ => .configured := by
  have hall : Function.update (Function.update (fun _ => Stage.done) false .configured) true
      .configured = fun _ => Stage.configured := by
    funext i
    cases i <;> rfl
  refine .bind follows_interrupts fun _ => .bind (follows_configureDriver rfl) fun _ =>
    .bind follows_interrupts fun _ => ?_
  refine .bind (Q := fun w m v =>
    Idle .dual (Function.update (fun _ => .done) false .configured) m v ∧ v = w)
    (.vars fun _ _ h => ⟨h, rfl⟩) fun w => .ite (fun _ => ?_) fun hknown => ?_
  · rw [← hall]
    exact (follows_configureDriver rfl).mono (fun _ _ h => h.1) fun _ _ _ h => h
  · refine .pure fun m v h => absurd ?_ hknown
    rw [← h.2]
    exact h.1.knownDual rfl

theorem follows_init : Follows Start (init fresh fuel)
    fun _ => Idle .dual fun _ => .configured := by
  refine .bind (Q := fun _ m v => m = Monitor.start ∧
    v = Vars.zero.setPort false fun p => { p with second := false }) ?_ fun _ => ?_
  · exact .modifyVars fun m v h => ⟨h.1, h.2 ▸ rfl⟩
  refine .bind (Q := fun _ => Idle .start fun _ => .untouched) ?_ fun _ => ?_
  · refine .modifyVars fun m v h => ?_
    rw [h.1, h.2]
    refine ⟨⟨rfl, nofun, fun i => ?_, fun i => ?_⟩, rfl, rfl⟩
    · cases i <;> rfl
    · cases i <;> exact ⟨rfl, rfl⟩
  refine .bind (follows_command (by simp)) fun _ => .bind (follows_command (by simp)) fun _ =>
    .bind follows_discard fun _ => .bind follows_askConfig fun _ =>
    .bind follows_readConfig fun config => ?_
  refine .bind (Q := fun _ m v => (Idle .start fun _ => .untouched) m v ∧ m.config = config) ?_
    fun _ => .bind follows_setConfig fun _ => ?_
  · refine .modifyVars fun m v h =>
      ⟨⟨⟨h.1.selfTest, nofun, ?_, ?_⟩, h.1.pending, h.1.awaiting⟩, h.2⟩
    all_goals split_ifs
    · exact h.1.second
    · exact h.1.second
    · exact h.1.ports
    · exact h.1.ports
  refine .bind (follows_ask ?_) fun _ => .bind follows_readSelfTest fun result => ?_
  · intro m hpending hawaiting _
    simp [Monitor.command, hpending, hawaiting, comTestcon, comWrite, comNext2in, comRead]
  refine .ite (fun hne => .stop fun m v h => ⟨hne, ?_⟩) fun heq => ?_
  · rw [h.selfTest, if_neg hne]
    rfl
  rw [if_pos (not_not.mp heq)]
  refine .bind (Q := fun w m v => (Idle .tested fun _ => .untouched) m v ∧ v = w)
    (.vars fun _ _ h => ⟨h, rfl⟩) fun w => ?_
  have htests : Follows (Idle .dual fun _ => .untouched)
      (testPort fresh false fuel >>= fun _ => testPort fresh true fuel >>= fun _ =>
        configurePorts fuel) fun _ => Idle .dual fun _ => .configured := by
    rw [← Exec.bind_bind]
    exact follows_tests.bind fun _ => follows_configurePorts
  refine .ite (fun hknown => ?_) fun _ => ?_
  · refine htests.mono (fun m v h => ?_) fun _ _ _ h => h
    exact ⟨⟨h.1.selfTest, fun _ => h.2 ▸ hknown, h.1.second, h.1.ports⟩, h.1.pending,
      h.1.awaiting⟩
  · exact .bind (follows_findDual.mono (fun _ _ h => h.1) fun _ _ _ h => h) fun _ => htests

/-- `init` at boot, with these answers of the controller. -/
def boot (answers : ℕ → Byte) (fresh : Ps2keyboard.Driver) (fuel : ℕ) :
    Except Halt Unit × Ports.Bus Port Byte Vars :=
  init fresh fuel ⟨answers, [], Vars.zero⟩

/-- Whatever the controller answers and whichever interrupts come, `init` follows its protocol: a
command is only given when the one before it has its argument and its answer, and a device is only
sent a byte when its port has passed its test.  When it returns, an enabled port has passed its
test, and a port with a driver is enabled and has a keyboard, which has passed its own test.  It
panics only when the answer to the controller's test was another one. -/
theorem boot_follows (answers : ℕ → Byte) (fresh : Ps2keyboard.Driver) (fuel : ℕ) :
    ∃ m, (boot answers fresh fuel).2.seen accept Monitor.start = some m ∧
      ((boot answers fresh fuel).1 = .ok () → m.selfTest = true ∧ ∀ i,
        (((boot answers fresh fuel).2.vars.ports i).enabled = true → m.tested i = true) ∧
        ∀ d, ((boot answers fresh fuel).2.vars.ports i).driver = some d →
          ((boot answers fresh fuel).2.vars.ports i).enabled = true ∧
          ((boot answers fresh fuel).2.vars.ports i).type.isKeyboard = true ∧
          d.selfTestPassed = true) ∧
      ∀ result, (boot answers fresh fuel).1 = .error (.selfTest result) →
        result ≠ 0x55 ∧ m.selfTest = false := by
  obtain ⟨m, hlog, hok, herr⟩ := @follows_init fuel fresh ⟨answers, [], Vars.zero⟩ Monitor.start rfl
    ⟨rfl, rfl⟩
  refine ⟨m, hlog, fun hret => ⟨(hok () hret).selfTest, fun i => (hok () hret).ports i⟩, ?_⟩
  intro result hres
  exact herr _ hres

/-- A controller with one port, to which a keyboard is connected that answers each byte. -/
def keyboardAnswers : List Byte :=
  [0, 0, 0, 0, 0, 0x55, 0, 0, 0, 0xfa, 0, 0xfa, 0, 0xab, 0, 0x83, 0, 0, 0, 0, 1, 0, 0, 0, 0, 0, 0,
    1, 0, 0xfa, 0, 1, 0, 0xaa, 0, 0, 0, 1, 0, 0xfa, 0, 0, 0, 1, 0, 0xfa]

example : (boot (keyboardAnswers.getD · 0) ⟨0, false, 0, 0, false⟩ 4).1 = .ok () := by
  decide +kernel

end Cantos.Ps2
