import Mathlib.Logic.Function.Basic

namespace SwiftBSD.Hal.Pci

def maxDevices : Nat := 64

/-- `pci_dev_t` -/
structure Dev where
  bus : UInt8
  slot : UInt8
  func : UInt8
  vendor : UInt16
  device : UInt16
  classCode : UInt8
  subclass : UInt8
  progIf : UInt8
  bar : Fin 6 → UInt32
  isBridge : Bool
  secondaryBus : UInt8
  headerType : UInt8

/-- The static variables; only the first 64 places of `devices` are used. -/
structure State where
  devices : Nat → Dev
  ndevices : Nat

/-- What `pci_config_read` writes to the address port. -/
def configAddr (bus slot func : UInt8) (reg : UInt32) : UInt32 :=
  ((1 : UInt32) <<< 31) ||| (bus.toUInt32 <<< 16) ||| (slot.toUInt32 <<< 11) ||| (func.toUInt32 <<< 8) ||| (reg &&& 0xFC)

variable (space : UInt32 → UInt32)

/-- `pci_config_read` -/
def configRead (bus slot func : UInt8) (reg : UInt32) : UInt32 := space (configAddr bus slot func reg)

/-- The entry that `add_device` starts from, with what was in the array before. -/
def identified (bus slot func : UInt8) (d : Dev) : Dev :=
  let id := configRead space bus slot func 0
  { d with bus := bus, slot := slot, func := func, vendor := (id &&& 0xFFFF).toUInt16, device := (id >>> 16).toUInt16 }

/-- The rest of the entry; `secondary_bus` is set for bridges only. -/
def filled (d : Dev) : Dev :=
  let cc := configRead space d.bus d.slot d.func 8
  let hdr := configRead space d.bus d.slot d.func 0x0C
  let headerType := ((hdr >>> 16) &&& 0xFF).toUInt8
  let d := { d with
    classCode := ((cc >>> 24) &&& 0xFF).toUInt8
    subclass := ((cc >>> 16) &&& 0xFF).toUInt8
    progIf := ((cc >>> 8) &&& 0xFF).toUInt8
    headerType := headerType
    bar := fun i => configRead space d.bus d.slot d.func (0x10 + UInt32.ofNat i.val * 4)
    isBridge := (headerType &&& 0x7F) == 0x01 }
  if d.isBridge then { d with secondaryBus := ((configRead space d.bus d.slot d.func 0x18 >>> 8) &&& 0xFF).toUInt8 } else d

def addDevice (bus slot func : UInt8) (s : State) : State :=
  if maxDevices ≤ s.ndevices then s
  else
    let d := identified space bus slot func (s.devices s.ndevices)
    if d.vendor = 0xFFFF then { s with devices := Function.update s.devices s.ndevices d }
    else { devices := Function.update s.devices s.ndevices (filled space d), ndevices := s.ndevices + 1 }

/-- No function answers here. -/
def absent (bus slot func : UInt8) : Bool := configRead space bus slot func 0 &&& 0xFFFF == 0xFFFF

def multifunc (bus slot : UInt8) : Bool := (configRead space bus slot 0 0x0C >>> 23) &&& 1 != 0

def scanSlot (bus slot : UInt8) (s : State) : State :=
  if absent space bus slot 0 then s
  else
    let s := addDevice space bus slot 0 s
    if multifunc space bus slot then
      (List.range' 1 7).foldl (fun s func => if absent space bus slot (.ofNat func) then s else addDevice space bus slot (.ofNat func) s) s
    else s

def scanBus (bus : UInt8) (s : State) : State := (List.range 32).foldl (fun s slot => scanSlot space bus (.ofNat slot) s) s

/-- `for (int i = 0; i < ndevices; i++)`, for the `fuel` places from `i` on; `ndevices` is at most 64. -/
def scanBridges (recursive : UInt8 → State → Option State) (bus : UInt8) : Nat → Nat → State → Option State
  | 0, i, s => if s.ndevices ≤ i then some s else none
  | fuel + 1, i, s => do
      if s.ndevices ≤ i then return s
      let d := s.devices i
      let s ← if d.isBridge ∧ d.bus = bus ∧ d.secondaryBus ≠ 0 ∧ d.secondaryBus ≠ bus then recursive d.secondaryBus s else pure s
      scanBridges recursive bus fuel (i + 1) s

/-- `fuel` bounds the depth of the calls. -/
def scanBusRecursive : Nat → UInt8 → State → Option State
  | 0, _, _ => none
  | fuel + 1, bus, s => scanBridges (scanBusRecursive fuel) bus maxDevices 0 (scanBus space bus s)

def pciInit (fuel : Nat) (s : State) : Option State := scanBusRecursive space fuel 0 { s with ndevices := 0 }

/-- `pci_find` -/
def pciFind (classCode subclass progIf : UInt8) (s : State) : Option Nat :=
  (List.range s.ndevices).find? fun i =>
    (s.devices i).classCode == classCode && (s.devices i).subclass == subclass && (s.devices i).progIf == progIf

end SwiftBSD.Hal.Pci
