import Mathlib.Algebra.Group.Nat.Defs
import SwiftBSD.Mm.Vmm

namespace SwiftBSD.Mm
open Lib

/-- A byte of physical memory, the entry that maps it and its level, and what the whole walk allows. -/
structure Translation where
  phys : Nat
  leaf : UInt64
  level : Nat
  write : Bool
  user : Bool
  noExec : Bool
deriving DecidableEq

def index : Nat → UInt64 → Nat
  | 0 => ptLookup
  | 1 => pdLookup
  | 2 => pdptLookup
  | _ => pml4Lookup

def pageSize (level : Nat) : Nat := 4096 * 512 ^ level

/-- The frame an entry or `CR3` holds in its bits 12 to 51. -/
def tableOf (e : UInt64) : Nat := e.toNat % 2 ^ 52 / 4096

def leafAt (level : Nat) (e virt : UInt64) : Translation where
  phys := e.toNat % 2 ^ 52 / pageSize level * pageSize level + virt.toNat % pageSize level
  leaf := e
  level := level
  write := e &&& pgWrite != 0
  user := e &&& pgUser != 0
  noExec := e &&& pgNx != 0

/-- A table entry can only take rights away. -/
def Translation.restrict (e : UInt64) (t : Translation) : Translation :=
  { t with
    write := e &&& pgWrite != 0 && t.write
    user := e &&& pgUser != 0 && t.user
    noExec := e &&& pgNx != 0 || t.noExec }

/-- An entry of the PML4 must not be marked as a page. -/
def translateFrom (mem : Nat → Nat → UInt64) (virt : UInt64) : Nat → Nat → Option Translation
  | 0, f =>
      let e := mem f (index 0 virt)
      if e &&& pgPresent = 0 then none else some (leafAt 0 e virt)
  | level+1, f =>
      let e := mem f (index (level+1) virt)
      if e &&& pgPresent = 0 then none
      else if e &&& pgHuge ≠ 0 then
        if level < 2 then some (leafAt (level+1) e virt) else none
      else (translateFrom mem virt level (tableOf e)).map (·.restrict e)

def translate (mem : Nat → Nat → UInt64) (cr3 virt : UInt64) : Option Translation :=
  translateFrom mem virt 3 (tableOf cr3)

end SwiftBSD.Mm
