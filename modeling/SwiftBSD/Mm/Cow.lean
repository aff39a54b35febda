import SwiftBSD.Lib.Bytes
import SwiftBSD.Mm.Walk

namespace SwiftBSD.Mm
open Lib

def byteOf (w : UInt64) (k : Nat) : UInt8 := (leBytes 8 w.toNat).getD k 0

def putByte (w : UInt64) (k : Nat) (b : UInt8) : UInt64 := .ofNat (leNat ((leBytes 8 w.toNat).set k b))

def byteAt (mem : Nat → Nat → UInt64) (phys : Nat) : UInt8 := byteOf (mem (phys / 4096) (phys % 4096 / 8)) (phys % 8)

def setByteAt (phys : Nat) (b : UInt8) : MmM Unit := modify fun m =>
  let frame := phys / 4096
  let i := phys % 4096 / 8
  { m with mem := Function.update m.mem frame (Function.update (m.mem frame) i (putByte (m.mem frame i) (phys % 8) b)) }

/-- The translation of an address through the tables in use. -/
def translated (virt : UInt64) : MmM Translation := do
  let m ← get
  match translate m.mem m.cr3 virt with
  | some t => return t
  | none => failure

def loadWord (virt : UInt64) : MmM UInt64 := do
  let t ← translated virt
  return (← get).mem (t.phys / 4096) (t.phys % 4096 / 8)

def storeWord (virt value : UInt64) : MmM Unit := do
  let t ← translated virt
  let frame := t.phys / 4096
  modify fun m => { m with mem := Function.update m.mem frame (Function.update (m.mem frame) (t.phys % 4096 / 8) value) }

def loadWords (page : UInt64) : Nat → Nat → MmM (List UInt64)
  | _, 0 => return []
  | i, n+1 => do
      let w ← loadWord (page + 8 * .ofNat i)
      let rest ← loadWords page (i+1) n
      return w :: rest

/-- The handler halts if there is no frame left. -/
def cowFault (cr2 : UInt64) : MmM Unit := do
  let page := cr2 &&& pageMask
  let curCr3 := (← get).cr3
  let newPhys ← pageAlloc
  if newPhys = 0 then failure
  let bounce ← loadWords page 0 512
  vmmMapInCr3 curCr3 page newPhys (pgPresent ||| pgWrite ||| pgUser ||| pgNx)
  forRange (fun i => storeWord (page + 8 * .ofNat i) (bounce.getD i 0)) 0 512

def userLoad (virt : UInt64) : MmM UInt8 := do
  let t ← translated virt
  if !t.user then failure
  return byteAt (← get).mem t.phys

/-- A store that faults is made again when the handler returns. -/
def userStore (virt : UInt64) (b : UInt8) : MmM Unit := do
  let t ← translated virt
  if !t.user then failure
  if t.write then setByteAt t.phys b
  else
    cowFault virt
    let t ← translated virt
    if t.user ∧ t.write then setByteAt t.phys b else failure

/-- A 4 KB page of the user, where the handler copies pages. -/
structure UserPage (mem : Nat → Nat → UInt64) (cr3 virt : UInt64) (t : Translation) : Prop where
  low : virt < 0x800000000000
  above : 0x1000000 ≤ virt
  maps : translate mem cr3 virt = some t
  level : t.level = 0
  user : t.user = true

/-- The memory, and the tables of every process. -/
structure CowSys where
  machine : Machine
  spaces : List UInt64

inductive MemEvent
  | fork (k : Nat)
  | forkFailed (k : Nat)
  | load (k : Nat) (virt : UInt64) (b : UInt8)
  | store (k : Nat) (virt : UInt64) (b : UInt8)

inductive CowStep (s : CowSys) : MemEvent → CowSys → Prop
  | fork {k : Nat} {cr3 child : UInt64} {m : Machine} (here : s.spaces[k]? = some cr3)
      (run : (vmmClonePml4 cr3).run { s.machine with cr3 } = some (child, m)) (success : child ≠ 0) :
      CowStep s (.fork k) ⟨m, s.spaces ++ [child]⟩
  | forkFailed {k : Nat} {cr3 : UInt64} {m : Machine} (here : s.spaces[k]? = some cr3)
      (run : (vmmClonePml4 cr3).run { s.machine with cr3 } = some (0, m)) : CowStep s (.forkFailed k) ⟨m, s.spaces⟩
  | load {k : Nat} {cr3 virt : UInt64} {t : Translation} {b : UInt8} {m : Machine} (here : s.spaces[k]? = some cr3)
      (page : UserPage s.machine.mem cr3 virt t) (run : (userLoad virt).run { s.machine with cr3 } = some (b, m)) :
      CowStep s (.load k virt b) ⟨m, s.spaces⟩
  | store {k : Nat} {cr3 virt : UInt64} {t : Translation} {b : UInt8} {m : Machine} (here : s.spaces[k]? = some cr3)
      (page : UserPage s.machine.mem cr3 virt t) (run : (userStore virt b).run { s.machine with cr3 } = some ((), m)) :
      CowStep s (.store k virt b) ⟨m, s.spaces⟩

inductive CowRun (s : CowSys) : List MemEvent → CowSys → Prop
  | start : CowRun s [] s
  | step {events : List MemEvent} {e : MemEvent} {t u : CowSys} (before : CowRun s events t) (step : CowStep t e u) :
      CowRun s (events ++ [e]) u

abbrev View := UInt64 → UInt8

/-- What processes with a memory of their own would see: a child starts with what its parent sees, and a store changes
the memory of one process. -/
def MemEvent.apply (views : List View) : MemEvent → List View
  | .fork k => views ++ [views.getD k fun _ => 0]
  | .store k virt b => views.modify k fun view => Function.update view virt b
  | .forkFailed _ | .load _ _ _ => views

/-- What a process sees of the memory. -/
def viewOf (mem : Nat → Nat → UInt64) (cr3 : UInt64) : View := fun virt =>
  match translate mem cr3 virt with
  | some t => byteAt mem t.phys
  | none => 0

end SwiftBSD.Mm
