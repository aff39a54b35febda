import Mathlib.Tactic.Ring
import SwiftBSD.Lib.Loop

namespace SwiftBSD.Hal
open Lib

/-- `cmd_hdr_t` -/
structure CmdHdr where
  dw0 : UInt32
  dw1 : UInt32
  ctba : UInt32
  ctbau : UInt32

/-- `prdt_entry_t` -/
structure PrdtEntry where
  dba : UInt32
  dbau : UInt32
  rsvd : UInt32
  dbc : UInt32

/-- The FIS and the PRDT entry of the command table. -/
structure CmdTable where
  cfis : Nat → UInt8
  prdt : PrdtEntry

/-- A command as the controller has fetched it: `bytes` from the address `dba` on are read or written. -/
structure Command where
  write : Bool
  lba : Nat
  count : Nat
  dba : Nat
  bytes : Nat
deriving DecidableEq

/-- `ahci_port_t`, the registers of the port and the disk behind it. `issued` are the commands so far. -/
structure AhciPort where
  initialized : Bool
  clb : Nat → CmdHdr
  ctPhys : UInt64
  ct : CmdTable
  bufPhys : UInt64
  ci : UInt32
  status : UInt32
  tfd : UInt32
  sector : Nat → Nat → UInt8
  issued : List Command

structure Hba where
  ok : Bool
  nports : Int
  port : Nat → AhciPort
  mem : Nat → UInt8

abbrev HbaM := Prog Hba

def Hba.setPort (s : Hba) (i : Nat) (p : AhciPort) : Hba := { s with port := Function.update s.port i p }

def word64 (low high : UInt32) : Nat := low.toNat + 2 ^ 32 * high.toNat

/-- The six bytes of the address in the FIS. -/
def fisLba (cfis : Nat → UInt8) : Nat :=
  (cfis 4).toNat + 2 ^ 8 * (cfis 5).toNat + 2 ^ 16 * (cfis 6).toNat + 2 ^ 24 * (cfis 8).toNat + 2 ^ 32 * (cfis 9).toNat +
    2 ^ 40 * (cfis 10).toNat

/-- 0 stands for 65536 sectors. -/
def fisCount (cfis : Nat → UInt8) : Nat :=
  let n := (cfis 12).toNat + 2 ^ 8 * (cfis 13).toNat
  if n = 0 then 65536 else n

/-- A register FIS of five words with its table at the right place, for one of the two commands with 48-bit addresses. -/
def fetch (p : AhciPort) (slot : Nat) : Option Command :=
  let h := p.clb slot
  let write := h.dw0 &&& 0x40 ≠ 0
  if h.dw0 &&& 0x1F = 5 ∧ h.dw0 >>> 16 = 1 ∧ word64 h.ctba h.ctbau = p.ctPhys.toNat ∧ p.ct.cfis 0 = 0x27 ∧ p.ct.cfis 1 = 0x80 ∧
      p.ct.cfis 7 = 0x40 ∧ p.ct.cfis 2 = (if write then 0x35 else 0x25) then
    some ⟨write, fisLba p.ct.cfis, fisCount p.ct.cfis, word64 p.ct.prdt.dba p.ct.prdt.dbau, (p.ct.prdt.dbc &&& 0x3FFFFF).toNat + 1⟩
  else none

/-- Memory after the sectors of a command have been read. -/
def dmaIn (c : Command) (sector : Nat → Nat → UInt8) (mem : Nat → UInt8) (a : Nat) : UInt8 :=
  if c.dba ≤ a ∧ a < c.dba + c.bytes then sector (c.lba + (a - c.dba) / 512) ((a - c.dba) % 512) else mem a

/-- The disk after the sectors of a command have been written. -/
def dmaOut (c : Command) (mem : Nat → UInt8) (sector : Nat → Nat → UInt8) (n b : Nat) : UInt8 :=
  if c.lba ≤ n ∧ n < c.lba + c.count ∧ b < 512 then mem (c.dba + (n - c.lba) * 512 + b) else sector n b

/-- The controller carries out the command of a slot, if the length of the PRDT entry is the one of the transfer. -/
def execute (i slot : Nat) (s : Hba) : Option Hba :=
  let p := s.port i
  match fetch p slot with
  | none => none
  | some c =>
      if c.bytes = c.count * 512 then
        let issued := p.issued ++ [c]
        if c.write then some (s.setPort i { p with issued, sector := dmaOut c s.mem p.sector })
        else some { s.setPort i { p with issued } with mem := dmaIn c p.sector s.mem }
      else none

/-- The loop that waits for a slot: the register does not change while nothing is issued. -/
def freeSlot (ci : UInt32) : Option Nat :=
  if ci = 0 then some 0 else if ci &&& 1 = 0 then some 0 else if ci &&& 2 = 0 then some 1 else if ci &&& 4 = 0 then some 2 else none

def cmdHdr (p : AhciPort) (w : UInt32) : CmdHdr where
  dw0 := (5 : UInt32) ||| w <<< 6 ||| 0x10000
  dw1 := 0
  ctba := p.ctPhys.toUInt32
  ctbau := (p.ctPhys >>> 32).toUInt32

/-- The bytes of the FIS; those that are not named are 0. -/
def fis (command : UInt8) (lba : UInt64) (batch : Nat) : Nat → UInt8
  | 0 => 0x27
  | 1 => 0x80
  | 2 => command
  | 4 => lba.toUInt8
  | 5 => (lba >>> 8).toUInt8
  | 6 => (lba >>> 16).toUInt8
  | 7 => 0x40
  | 8 => (lba >>> 24).toUInt8
  | 9 => (lba >>> 32).toUInt8
  | 10 => (lba >>> 40).toUInt8
  | 12 => .ofNat batch
  | 13 => .ofNat (batch >>> 8)
  | _ => 0

def prdtEntry (p : AhciPort) (batch : Nat) : PrdtEntry :=
  ⟨p.bufPhys.toUInt32, (p.bufPhys >>> 32).toUInt32, 0, .ofNat (batch * 512 - 1)⟩

def fillCommand (p : AhciPort) (slot : Nat) (w : UInt32) (command : UInt8) (lba : UInt64) (batch : Nat) : AhciPort :=
  { p with
    clb := Function.update p.clb slot (cmdHdr p w)
    ct := ⟨fis command lba batch, prdtEntry p batch⟩ }

/-- One command, from the search for a slot to the check for an error; `true` is the early `return -1`. -/
def issue (i : Nat) (w : UInt32) (command : UInt8) (lba : UInt64) (batch : Nat) : HbaM Bool := do
  let s ← get
  match freeSlot (s.port i).ci with
  | none => return true
  | some slot =>
      match execute i slot (s.setPort i (fillCommand (s.port i) slot w command lba batch)) with
      | none => failure
      | some s =>
          set s
          return (s.port i).tfd &&& 1 ≠ 0

def batchOf (total : Nat) : Nat := if 16 < total then 16 else total

/-- `memcpy` to the buffer of the caller. -/
def copyIn (mem : Nat → UInt8) (src offset n : Nat) (buf : Nat → UInt8) (k : Nat) : UInt8 :=
  if offset ≤ k ∧ k < offset + n then mem (src + (k - offset)) else buf k

/-- `memcpy` to memory. -/
def copyOut (buf : Nat → UInt8) (offset dst n : Nat) (mem : Nat → UInt8) (a : Nat) : UInt8 :=
  if dst ≤ a ∧ a < dst + n then buf (offset + (a - dst)) else mem a

/-- The loop of `ahci_read`; `offset` is an `int`, which must not overflow. The result is that of the call, with the buffer of the caller. -/
def readLoop (i : Nat) : Nat → UInt64 → Nat → Nat → (Nat → UInt8) → HbaM (Int × (Nat → UInt8))
  | 0, _, _, _, _ => failure
  | fuel+1, lba, offset, total, buf => do
      if total = 0 then return (offset, buf)
      let batch := batchOf total
      if ← issue i 0 0x25 lba batch then return (-1, buf)
      modify fun s => s.setPort i { s.port i with status := 0 }
      let s ← get
      let buf := copyIn s.mem (s.port i).bufPhys.toNat offset (batch * 512) buf
      if 2 ^ 31 ≤ offset + batch * 512 then failure
      readLoop i fuel (lba + .ofNat batch) (offset + batch * 512) (total - batch) buf

def writeLoop (i : Nat) (buf : Nat → UInt8) : Nat → UInt64 → Nat → Nat → HbaM Int
  | 0, _, _, _ => failure
  | fuel+1, lba, offset, total => do
      if total = 0 then return offset
      let batch := batchOf total
      modify fun s => { s with mem := copyOut buf offset (s.port i).bufPhys.toNat (batch * 512) s.mem }
      if ← issue i 1 0x35 lba batch then return -1
      if 2 ^ 31 ≤ offset + batch * 512 then failure
      writeLoop i buf fuel (lba + .ofNat batch) (offset + batch * 512) (total - batch)

/-- Is the port one that can be used? -/
def usable (s : Hba) (port : Int) : Bool := s.ok && 0 ≤ port && port < s.nports && (s.port port.toNat).initialized

/-- The loop takes at most `count` rounds. -/
def ahciRead (port : Int) (lba : UInt64) (buf : Nat → UInt8) (count : Int32) : HbaM (Int × (Nat → UInt8)) := do
  if usable (← get) port then readLoop port.toNat (count.toInt.toNat + 1) lba 0 count.toInt.toNat buf
  else return (-1, buf)

def ahciWrite (port : Int) (lba : UInt64) (buf : Nat → UInt8) (count : Int32) : HbaM Int := do
  if usable (← get) port then writeLoop port.toNat buf (count.toInt.toNat + 1) lba 0 count.toInt.toNat
  else return -1

end SwiftBSD.Hal
