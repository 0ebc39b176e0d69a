import Mathlib.Data.BitVec
import Mathlib.Data.List.Basic

/-!
# The enumeration of the PCI bus

The configuration space, the constructor of `Device` and `pci::init`, up to the drivers.  The
registers are read through an address and a data port: the space is a function of the address.

`devices` is a vector.  It is given by its elements and the size of its buffer, as a reference
into the buffer is good only until the buffer is replaced.

## Main definitions

* `Device.new`: the constructor.
* `searchBus`, `init`: without a result where a destroyed `Device` is read.
-/

namespace Cantos.Pci

/-- The data port for every value of the address port. -/
abbrev Space := ℕ → BitVec 32

/-- `_read`. The offsets of all callers are multiples of 4. -/
def read (space : Space) (bus slot func offset : ℕ) : BitVec 32 :=
  space ((bus <<< 16) ||| (slot <<< 11) ||| (func <<< 8) ||| offset ||| 0x80000000)

/-- `_read_device_vendor` -/
def readDeviceVendor (space : Space) (bus slot fn : ℕ) : BitVec 32 := read space bus slot fn 0

/-- What a `Device` takes from the registers of a function. -/
structure Registers where
  vendorId : BitVec 16
  deviceId : BitVec 16
  revision : BitVec 8
  progIf : BitVec 8
  deviceSubclass : BitVec 8
  deviceClass : BitVec 8
  headerType : BitVec 8
  deriving DecidableEq, Repr

/-- `Device`, without its driver. -/
structure Device extends Registers where
  bus : ℕ
  slot : ℕ
  function : ℕ
  multifunction : BitVec 8
  deriving DecidableEq, Repr

section Registers
variable (space : Space) (bus slot : ℕ)

/-- `get32` of a device on a bus and in a slot; the function is an argument. -/
def get32 (fn addr : ℕ) : BitVec 32 := read space bus slot fn addr

def get8 (fn addr : ℕ) : BitVec 8 :=
  let base := addr &&& 0xfc
  let offset := addr % 0x4
  let result := get32 space bus slot fn base
  ((result >>> (offset * 8)) &&& 0xff#32).setWidth 8

/-- The registers of a function. -/
def registers (fn : ℕ) : Registers :=
  let first := get32 space bus slot fn 0x00
  let second := get32 space bus slot fn 0x08
  let ht := get8 space bus slot fn 0x0e
  { vendorId := (first &&& 0xffff#32).setWidth 16
    deviceId := (first >>> 16).setWidth 16
    revision := (second &&& 0xff#32).setWidth 8
    progIf := ((second >>> 8) &&& 0xff#32).setWidth 8
    deviceSubclass := ((second >>> 16) &&& 0xff#32).setWidth 8
    deviceClass := ((second >>> 24) &&& 0xff#32).setWidth 8
    headerType := ht &&& 0x7f#8 }

/-- `Device::Device`. It passes 0 for the function wherever it reads. -/
def Device.new (function : ℕ) : Device :=
  { toRegisters := registers space bus slot 0
    bus := bus
    slot := slot
    function := function
    multifunction := get8 space bus slot 0 0x0e &&& 0x80#8 }

/-- `PBR_SECONDARY_BUS_NUM` -/
def secondaryBus (fn : ℕ) : ℕ := (get8 space bus slot fn 0x19).toNat

end Registers

/-- A PCI to PCI bridge. -/
def Registers.isBridge (r : Registers) : Bool := r.deviceClass = 0x06#8 ∧ r.deviceSubclass = 0x04#8

/-- `devices` -/
structure Devices where
  entries : List Device
  buffSize : ℕ

/-- The vector after its constructor. -/
def Devices.empty : Devices := ⟨[], 4⟩

/-- `emplace_back`; a full buffer is replaced. -/
def Devices.emplaceBack (ds : Devices) (device : Device) : Devices :=
  { entries := ds.entries ++ [device]
    buffSize := if ds.entries.length = ds.buffSize then 2 * ds.buffSize else ds.buffSize }

section Search
variable (space : Space) (search : ℕ → Devices → Option Devices) (bus i : ℕ)

/-- The body of the loop over the other functions of a slot; `search` is `_search_bus` from
the slot 0 on. -/
def searchFunction (ds : Devices) (j : ℕ) : Option Devices :=
  if readDeviceVendor space bus i 0 ≠ 0xffffffff#32 then
    let device := Device.new space bus i j
    let ds := ds.emplaceBack device
    if device.isBridge then search (secondaryBus space bus i 0) ds else some ds
  else some ds

/-- The body of the loop over the slots. -/
def searchSlot (ds : Devices) : Option Devices :=
  if readDeviceVendor space bus i 0 ≠ 0xffffffff#32 then
    let device := Device.new space bus i 0
    let ds := ds.emplaceBack device
    let buffSize := ds.buffSize
    (if device.isBridge then search (secondaryBus space bus i 0) ds else some ds).bind fun ds =>
      -- `device` is a reference into the buffer of the time of its `emplace_back`.
      if ds.buffSize ≠ buffSize then none
      else if device.multifunction ≠ 0 then
        (List.range' 1 7).foldlM (searchFunction space search bus i) ds
      else some ds
  else some ds

end Search

/-- `_search_bus` -/
def searchBus (space : Space) : (fuel : ℕ) → (bus start : ℕ) → Devices → Option Devices
  | 0, _, _, _ => none
  | fuel + 1, bus, start, ds =>
      (List.range' start (32 - start)).foldlM
        (fun ds i => searchSlot space (fun bus => searchBus space fuel bus 0) bus i ds) ds

/-- The loop of `init` over the functions of the host bridge. -/
def searchHosts (space : Space) (fuel : ℕ) : (fns : List ℕ) → Devices → Option Devices
  | [], ds => some ds
  | fn :: fns, ds =>
      if readDeviceVendor space 0 0 fn ≠ 0xffffffff#32 then some ds
      else (searchBus space fuel fn (if fn = 0 then 1 else 0) ds).bind (searchHosts space fuel fns)

/-- `init`, with fuel for the 256 buses. -/
def init (space : Space) : Option Devices :=
  let device := Device.new space 0 0 0
  let ds := Devices.empty.emplaceBack device
  if device.multifunction ≠ 0 then searchHosts space 256 (List.range 8) ds
  else searchBus space 256 0 1 ds

end Cantos.Pci
