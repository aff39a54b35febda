import SwiftBSD.Lib.Loop

namespace SwiftBSD.Mm
open Lib

def maxPages : Nat := 512 * 1024 * 1024 / 4096

/-- `bitmap` is true for a frame that is taken; `cr3` is the register. -/
structure Machine where
  mem : Nat → Nat → UInt64
  bitmap : Nat → Bool
  lastPhysPage : Nat
  freePageCount : UInt64
  cr3 : UInt64
  bounded : lastPhysPage ≤ maxPages

abbrev MmM := Prog Machine

def frameOf (phys : UInt64) : Nat := phys.toNat / 4096

def addrOf (frame : Nat) : UInt64 := .ofNat (4096 * frame)

/-- Word `i` of the frame at a physical address. -/
def word (phys : UInt64) (i : Nat) : MmM UInt64 := return (← get).mem (frameOf phys) i

def setWord (phys : UInt64) (i : Nat) (value : UInt64) : MmM Unit := modify fun m =>
  { m with mem := Function.update m.mem (frameOf phys) (Function.update (m.mem (frameOf phys)) i value) }

def pageAlloc : MmM UInt64 := do
  let m ← get
  match firstFrom (fun i => !m.bitmap i) 0 m.lastPhysPage with
  | some i =>
      set { m with bitmap := Function.update m.bitmap i true, freePageCount := m.freePageCount - 1 }
      return addrOf i
  | none => return 0

def pageFree (addr : UInt64) : MmM Unit := do
  let m ← get
  let p := frameOf addr
  if maxPages ≤ p then return
  if m.bitmap p then
    set { m with bitmap := Function.update m.bitmap p false, freePageCount := m.freePageCount + 1 }

end SwiftBSD.Mm
