import Mathlib.Data.BitVec
import Mathlib.Data.List.Basic

/-!
# The PS/2 keyboard's driver

The keyboard sends scancodes of set 2, byte by byte: `Ps2KeyboardDriver::handle` is called for
every byte, and prints one code for every key that is pressed or released.

## Main definitions

* `Driver`: the fields of a `Ps2KeyboardDriver`.
* `handle`: one byte.
* `Event.encode`: the scancodes.
-/

namespace Cantos.Ps2keyboard

/-- `uint8_t` -/
abbrev Byte := BitVec 8

/-- `MASK_RELEASE` -/
def maskRelease : BitVec 16 := 0x8000
/-- `MASK_EXTENDED` -/
def maskExtended : BitVec 16 := 0x0080
/-- `ERR_1` -/
def err1 : Byte := 0x00
/-- `PASS` -/
def pass : Byte := 0xaa
/-- `ECHO` -/
def echo : Byte := 0xee
/-- `ACK` -/
def ack : Byte := 0xfa
/-- `ST_FAIL_1` -/
def stFail1 : Byte := 0xfc
/-- `ST_FAIL_2` -/
def stFail2 : Byte := 0xfd
/-- `RESEND` -/
def resend : Byte := 0xfe
/-- `ERR_2` -/
def err2 : Byte := 0xff

/-- The fields of a `Ps2KeyboardDriver`; `last_input` is an `int16_t`. -/
structure Driver where
  key : BitVec 16
  doubleCode : Bool
  lastKey : BitVec 16
  lastInput : BitVec 16
  selfTestPassed : Bool
  deriving DecidableEq, Repr

/-- What `handle` prints. -/
inductive Printed
  /-- `printk("0x%x ", key)` -/
  | code (key : BitVec 16)
  /-- `kwarn("Unknown e1 scancode %x %x\n", last_key, input)` -/
  | unknownE1 (lastKey : BitVec 16) (input : Byte)
  /-- `kwarn("Unknown keyboard scancode %x\n", input)` -/
  | unknown (input : Byte)
  deriving DecidableEq, Repr

/-- From `key |= input` on. -/
def Driver.finish (d : Driver) (input : Byte) : Driver × Option Printed :=
  ({ d with key := 0, lastKey := 0 }, some (.code (d.key ||| input.setWidth 16)))

/-- "Anything else is a literal key code" -/
def Driver.literal (d : Driver) (input : Byte) : Driver × Option Printed :=
  if d.doubleCode then ({ d with lastKey := input.setWidth 16, doubleCode := false }, none)
  else if d.lastKey ≠ 0 then
    if d.lastKey = 0x14 ∧ input = 0x77 then d.finish 0x0f
    else ({ d with key := 0, lastKey := 0 }, some (.unknownE1 d.lastKey input))
  else d.finish input

/-- `Ps2KeyboardDriver::handle` behind the checks for answers of the keyboard. -/
def Driver.scancode (d : Driver) (input : Byte) : Driver × Option Printed :=
  -- F7
  let input := if input = 0x83 then 0x02 else input
  if input = 0xe0 then ({ d with key := d.key ||| maskExtended }, none)
  else if input = 0xe1 then ({ d with doubleCode := true }, none)
  else if input = 0xf0 then ({ d with key := d.key ||| maskRelease }, none)
  else if input < 0x80 then d.literal input
  else (d, some (.unknown input))

/-- `Ps2KeyboardDriver::handle`, when `port.read` returns `input`. -/
def handle (d : Driver) (input : Byte) : Driver × Option Printed :=
  if input = pass then ({ d with selfTestPassed := true }, none)
  else if d.lastInput = -1 then ({ d with lastInput := input.setWidth 16 }, none)
  else if input = err1 ∨ input = err2 then (d, none)
  else if input = echo ∨ input = ack ∨ input = resend then (d, none)
  else if input = stFail1 ∨ input = stFail2 then (d, none)
  else d.scancode input

/-- `handle` for some bytes. -/
def feed (d : Driver) : List Byte → Driver × List Printed
  | [] => (d, [])
  | input :: rest =>
      let (d, printed) := handle d input
      let (d, later) := feed d rest
      (d, printed.toList ++ later)

/-! ## Scancodes -/

/-- A key code that no other key is remapped to. -/
def Code := { k : Byte // 1 ≤ k ∧ k ≤ 0x7f ∧ k ≠ 0x02 ∧ k ≠ 0x0f }
  deriving DecidableEq

inductive Key
  | plain (k : Code)
  | extended (k : Code)
  | f7
  | pause
  deriving DecidableEq

/-- A key is pressed or released. -/
structure Event where
  key : Key
  release : Bool
  deriving DecidableEq

/-- The bytes of an event in scancode set 2. -/
def Event.encode : Event → List Byte
  | ⟨.plain k, false⟩ => [k.val]
  | ⟨.plain k, true⟩ => [0xf0, k.val]
  | ⟨.extended k, false⟩ => [0xe0, k.val]
  | ⟨.extended k, true⟩ => [0xe0, 0xf0, k.val]
  | ⟨.f7, false⟩ => [0x83]
  | ⟨.f7, true⟩ => [0xf0, 0x83]
  | ⟨.pause, false⟩ => [0xe1, 0x14, 0x77]
  | ⟨.pause, true⟩ => [0xe1, 0xf0, 0x14, 0xf0, 0x77]

/-- Between two events, when no answer of the keyboard is awaited. -/
structure Driver.Idle (d : Driver) : Prop where
  key : d.key = 0
  lastKey : d.lastKey = 0
  doubleCode : d.doubleCode = false
  lastInput : d.lastInput ≠ -1

namespace Key

/-- The lower bits of the code of a key. -/
def byte : Key → Byte
  | plain k => k.val
  | extended k => k.val
  | f7 => 0x02
  | pause => 0x0f

/-- The key has a code with `e0`. -/
def isExtended : Key → Bool
  | extended _ => true
  | _ => false

end Key

/-- What is printed for an event. -/
def Event.code (e : Event) : BitVec 16 :=
  (if e.key.isExtended then maskExtended else 0) ||| (if e.release then maskRelease else 0) |||
    e.key.byte.setWidth 16

/-! ## Single bytes -/

variable {d : Driver} {k input : Byte} {xs ys : List Byte}

/-- A key code is none of the bytes that mean something else. -/
theorem code_ne (h0 : 1 ≤ k) (h : k < 0x80) :
    k ≠ pass ∧ (k ≠ err1 ∧ k ≠ err2) ∧ (k ≠ echo ∧ k ≠ ack ∧ k ≠ resend) ∧
      (k ≠ stFail1 ∧ k ≠ stFail2) ∧ k ≠ 0x83 ∧ k ≠ 0xe0 ∧ k ≠ 0xe1 ∧ k ≠ 0xf0 := by
  revert k
  decide

theorem Driver.literal_selfTestPassed :
    (d.literal input).1.selfTestPassed = d.selfTestPassed := by
  unfold literal
  split_ifs <;> rfl

theorem Driver.scancode_selfTestPassed :
    (d.scancode input).1.selfTestPassed = d.selfTestPassed := by
  simp only [scancode]
  generalize (if input = 0x83 then 0x02 else input) = key
  split_ifs
  · rfl
  · rfl
  · rfl
  · exact literal_selfTestPassed
  · rfl

/-- No byte makes the driver forget that the keyboard has passed its test. -/
theorem handle_selfTestPassed (h : d.selfTestPassed = true) :
    (handle d input).1.selfTestPassed = true := by
  unfold handle
  split_ifs
  · rfl
  · exact h
  · exact h
  · exact h
  · exact h
  · rw [Driver.scancode_selfTestPassed, h]

theorem handle_literal (hd : d.lastInput ≠ -1) (h0 : 1 ≤ k) (h : k < 0x80) :
    handle d k = d.literal k := by
  obtain ⟨hpass, herr, hmisc, hfail, h83, he0, he1, hf0⟩ := code_ne h0 h
  rw [handle, if_neg hpass, if_neg hd, if_neg (not_or.mpr herr),
    if_neg (by simpa only [not_or] using hmisc), if_neg (not_or.mpr hfail), Driver.scancode,
    if_neg h83]
  simp only [if_neg he0, if_neg he1, if_neg hf0, if_pos h]

theorem handle_e0 (hd : d.lastInput ≠ -1) :
    handle d 0xe0 = ({ d with key := d.key ||| maskExtended }, none) := by
  rw [handle, if_neg (by decide), if_neg hd]
  rfl

theorem handle_e1 (hd : d.lastInput ≠ -1) :
    handle d 0xe1 = ({ d with doubleCode := true }, none) := by
  rw [handle, if_neg (by decide), if_neg hd]
  rfl

theorem handle_f0 (hd : d.lastInput ≠ -1) :
    handle d 0xf0 = ({ d with key := d.key ||| maskRelease }, none) := by
  rw [handle, if_neg (by decide), if_neg hd]
  rfl

/-- `F7` is remapped. -/
theorem handle_f7 (hd : d.lastInput ≠ -1) : handle d 0x83 = d.literal 0x02 := by
  rw [handle, if_neg (by decide), if_neg hd]
  rfl

@[simp] theorem feed_nil : feed d [] = (d, []) := rfl

theorem feed_cons : feed d (input :: xs) =
    ((feed (handle d input).1 xs).1,
      (handle d input).2.toList ++ (feed (handle d input).1 xs).2) := rfl

theorem feed_append : feed d (xs ++ ys) =
    ((feed (feed d xs).1 ys).1, (feed d xs).2 ++ (feed (feed d xs).1 ys).2) := by
  induction xs generalizing d with
  | nil => rfl
  | cons x xs ih => rw [List.cons_append, feed_cons, ih, feed_cons, List.append_assoc]

/-! ## Events -/

variable {e e' : Event}

theorem Code.lt (k : Code) : k.val < 0x80 := by
  have h := k.property.2.1
  simp only [BitVec.le_def, BitVec.lt_def] at h ⊢
  exact Nat.lt_of_le_of_lt h (by decide)

/-- The bytes of an event print its code, and leave the driver as it was. -/
theorem feed_encode (hd : d.Idle) (e : Event) : feed d e.encode = (d, [.code e.code]) := by
  obtain ⟨key, doubleCode, lastKey, lastInput, selfTestPassed⟩ := d
  obtain ⟨rfl, rfl, rfl, hinput⟩ := hd
  obtain ⟨key, release⟩ := e
  cases key with
  | plain k =>
    cases release with
    | false =>
      rw [Event.encode, feed_cons, handle_literal _ k.property.1 k.lt]
      · simp [Driver.literal, Driver.finish, Event.code, Key.isExtended, Key.byte]
      · exact hinput
    | true =>
      rw [Event.encode, feed_cons, handle_f0, feed_cons, handle_literal _ k.property.1 k.lt]
      · rfl
      all_goals exact hinput
  | extended k =>
    cases release with
    | false =>
      rw [Event.encode, feed_cons, handle_e0, feed_cons, handle_literal _ k.property.1 k.lt]
      · simp [Driver.literal, Driver.finish, Event.code, Key.isExtended, Key.byte]
      all_goals exact hinput
    | true =>
      rw [Event.encode, feed_cons, handle_e0, feed_cons, handle_f0, feed_cons,
        handle_literal _ k.property.1 k.lt]
      · simp [Driver.literal, Driver.finish, Event.code, Key.isExtended, Key.byte]
      all_goals exact hinput
  | f7 =>
    cases release with
    | false =>
      rw [Event.encode, feed_cons, handle_f7]
      · rfl
      · exact hinput
    | true =>
      rw [Event.encode, feed_cons, handle_f0, feed_cons, handle_f7]
      · rfl
      all_goals exact hinput
  | pause =>
    cases release with
    | false =>
      -- The first part of the code is kept in `last_key`.
      rw [Event.encode, feed_cons, handle_e1, feed_cons, handle_literal _ (by decide) (by decide),
        feed_cons, handle_literal _ (by decide) (by decide)]
      · rfl
      all_goals exact hinput
    | true =>
      rw [Event.encode, feed_cons, handle_e1, feed_cons, handle_f0, feed_cons,
        handle_literal _ (by decide) (by decide), feed_cons, handle_f0, feed_cons,
        handle_literal _ (by decide) (by decide)]
      · simp [Driver.literal, Driver.finish, Event.code, Key.isExtended, Key.byte]
      all_goals exact hinput

/-- Every event is decoded behind the others. -/
theorem feed_flatMap_encode (hd : d.Idle) (events : List Event) :
    feed d (events.flatMap Event.encode) = (d, events.map fun e => .code e.code) := by
  induction events with
  | nil => rfl
  | cons e events ih => rw [List.flatMap_cons, feed_append, feed_encode hd, ih]; rfl

/-! ## Codes -/

/-- The parts of a code. -/
theorem parts (k : Byte) (extended release : Bool) (h : k < 0x80) :
    let code := (if extended then maskExtended else 0) ||| (if release then maskRelease else 0) |||
      k.setWidth 16
    (code &&& maskExtended ≠ 0 ↔ extended = true) ∧ (code &&& maskRelease ≠ 0 ↔ release = true) ∧
      code.setWidth 7 = k.setWidth 7 := by
  revert k
  cases extended <;> cases release <;> decide

theorem Key.byte_lt (k : Key) : k.byte < 0x80 := by
  cases k with
  | plain k => exact k.lt
  | extended k => exact k.lt
  | f7 => decide
  | pause => decide

/-- The masks say what kind of event it was. -/
theorem code_masks (e : Event) :
    (e.code &&& maskExtended ≠ 0 ↔ e.key.isExtended = true) ∧
      (e.code &&& maskRelease ≠ 0 ↔ e.release = true) := by
  obtain ⟨hextended, hrelease, -⟩ := parts e.key.byte e.key.isExtended e.release e.key.byte_lt
  exact ⟨hextended, hrelease⟩

theorem setWidth_inj {k k' : Byte} (hk : k < 0x80) (hk' : k' < 0x80)
    (h : k.setWidth 7 = k'.setWidth 7) : k = k' := by
  have hnat := congrArg BitVec.toNat h
  simp only [BitVec.toNat_setWidth, BitVec.lt_def] at hnat hk hk'
  apply BitVec.eq_of_toNat_eq
  rwa [Nat.mod_eq_of_lt (show k.toNat < 2 ^ 7 from hk),
    Nat.mod_eq_of_lt (show k'.toNat < 2 ^ 7 from hk')] at hnat

/-- A key is known by its lower bits and by whether it is extended. -/
theorem Key.eq_of_byte {k k' : Key} (hbyte : k.byte = k'.byte)
    (hextended : k.isExtended = k'.isExtended) : k = k' := by
  cases k with
  | plain k =>
    cases k' with
    | plain k' => rw [Subtype.ext hbyte]
    | extended k' => cases hextended
    | f7 => exact absurd hbyte k.property.2.2.1
    | pause => exact absurd hbyte k.property.2.2.2
  | extended k =>
    cases k' with
    | extended k' => rw [Subtype.ext hbyte]
    | plain k' => cases hextended
    | f7 => cases hextended
    | pause => cases hextended
  | f7 =>
    cases k' with
    | plain k' => exact absurd hbyte.symm k'.property.2.2.1
    | extended k' => cases hextended
    | f7 => rfl
    | pause => exact absurd hbyte (by decide)
  | pause =>
    cases k' with
    | plain k' => exact absurd hbyte.symm k'.property.2.2.2
    | extended k' => cases hextended
    | f7 => exact absurd hbyte (by decide)
    | pause => rfl

theorem code_injective : Function.Injective Event.code := by
  rintro ⟨k, release⟩ ⟨k', release'⟩ h
  obtain ⟨hextended, hrelease, hbyte⟩ := parts k.byte k.isExtended release k.byte_lt
  obtain ⟨hextended', hrelease', hbyte'⟩ := parts k'.byte k'.isExtended release' k'.byte_lt
  simp only [Event.code] at h
  rw [h] at hextended hrelease hbyte
  have hkey : k = k' := Key.eq_of_byte
    (setWidth_inj k.byte_lt k'.byte_lt (hbyte.symm.trans hbyte'))
    (Bool.eq_iff_iff.mpr (hextended.symm.trans hextended'))
  rw [hkey, Bool.eq_iff_iff.mpr (hrelease.symm.trans hrelease')]

/-- The driver prints one code for each event, from which the events are known, and is idle
again after each of them. -/
theorem feed_decodes (d : Driver) (hd : d.Idle) :
    (∀ events : List Event, feed d (events.flatMap Event.encode) =
      (d, events.map fun e => .code e.code)) ∧
      (∀ e : Event, (e.code &&& maskExtended ≠ 0 ↔ e.key.isExtended = true) ∧
        (e.code &&& maskRelease ≠ 0 ↔ e.release = true)) ∧
      Function.Injective fun events : List Event => (feed d (events.flatMap Event.encode)).2 := by
  refine ⟨feed_flatMap_encode hd, code_masks, fun events events' h => ?_⟩
  simp only [feed_flatMap_encode hd] at h
  exact List.map_injective_iff.mpr (fun e e' h => code_injective (Printed.code.inj h)) h

/-- A driver that was set up. -/
def configured : Driver := ⟨0, false, 0, 0xfa, true⟩

theorem feed_decodes_configured :
    configured.Idle ∧ (feed configured [0xe1, 0x14, 0x77, 0xe0, 0xf0, 0x75]).2 =
      [.code 0x000f, .code 0x80f5] := by
  have hd : configured.Idle := ⟨rfl, rfl, rfl, by decide⟩
  let up : Code := ⟨0x75, by decide⟩
  have h := (feed_decodes configured hd).1 [⟨.pause, false⟩, ⟨.extended up, true⟩]
  exact ⟨hd, (congrArg Prod.snd h).trans (by decide)⟩

end Cantos.Ps2keyboard
