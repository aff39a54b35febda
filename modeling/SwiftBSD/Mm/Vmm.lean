import SwiftBSD.Mm.Pmm

namespace SwiftBSD.Mm
open Lib

def pgPresent : UInt64 := 1
def pgWrite : UInt64 := 2
def pgUser : UInt64 := 4
def pgDirty : UInt64 := 0x40
def pgHuge : UInt64 := 0x80
def pgNx : UInt64 := 0x8000000000000000

/-- `~0xFFF` -/
def pageMask : UInt64 := 0xFFFFFFFFFFFFF000

def ptLookup (virt : UInt64) : Nat := (virt >>> 12 &&& 0x1FF).toNat
def pdLookup (virt : UInt64) : Nat := (virt >>> 21 &&& 0x1FF).toNat
def pdptLookup (virt : UInt64) : Nat := (virt >>> 30 &&& 0x1FF).toNat
def pml4Lookup (virt : UInt64) : Nat := (virt >>> 39 &&& 0x1FF).toNat

def tableFlags (user : Bool) : UInt64 := pgPresent ||| pgWrite ||| (if user then pgUser else 0)

/-- A 2 MB page is split into the 512 pages of a new table. -/
def getOrAllocTable (parent : UInt64) (idx : Nat) (isPd user : Bool) : MmM UInt64 := do
  let e ← word parent idx
  if e &&& pgPresent ≠ 0 then
    if isPd ∧ e &&& pgHuge ≠ 0 then
      let physBase := e &&& 0xFFFFFFFFFFE00000
      let ptFlags := e &&& 0x1FF &&& ~~~pgHuge ||| (if e &&& pgNx ≠ 0 then pgNx else 0)
      let pt ← pageAlloc
      if pt = 0 then return 0
      forRange (fun i => setWord pt i 0) 0 512
      forRange (fun i => setWord pt i (physBase + UInt64.ofNat i * 0x1000 ||| ptFlags)) 0 512
      setWord parent idx (pt ||| tableFlags user)
      return pt
    else return e &&& pageMask
  else
    let paddr ← pageAlloc
    if paddr = 0 then return 0
    forRange (fun i => setWord paddr i 0) 0 512
    setWord parent idx (paddr ||| tableFlags user)
    return paddr

def vmmMapInCr3 (cr3 virt phys flags : UInt64) : MmM Unit := do
  let user := decide (pml4Lookup virt < 256)
  let pdpt ← getOrAllocTable cr3 (pml4Lookup virt) false user
  let pd ← getOrAllocTable pdpt (pdptLookup virt) false user
  let pt ← getOrAllocTable pd (pdLookup virt) true user
  if pt = 0 then return
  let e := phys &&& pageMask ||| pgPresent ||| flags &&& 0xFFF
  setWord pt (ptLookup virt) (if flags &&& pgNx ≠ 0 then e ||| pgNx else e)

def vmmMap (virt phys flags : UInt64) : MmM Unit := do
  vmmMapInCr3 (← get).cr3 virt phys flags

/-- The kernel's own table `page_pml4` is an argument. -/
def vmmUnmap (pagePml4 virt : UInt64) : MmM Unit := do
  let e ← word pagePml4 (pml4Lookup virt)
  if e &&& pgPresent = 0 then return
  let pdpt := e &&& pageMask
  let e ← word pdpt (pdptLookup virt)
  if e &&& pgPresent = 0 then return
  let pd := e &&& pageMask
  let e ← word pd (pdLookup virt)
  if e &&& pgPresent = 0 then return
  let pt := e &&& pageMask
  let pte ← word pt (ptLookup virt)
  if pte &&& pgUser ≠ 0 then pageFree (pte &&& pageMask)
  setWord pt (ptLookup virt) 0

def vmmAllocPage : MmM UInt64 := do
  let phys ← pageAlloc
  if phys = 0 then return 0
  forRange (fun i => setWord phys i 0) 0 512
  return phys

/-- The body of the loop of `clone_table_rw`. -/
def rwEntry (parent child : UInt64) (user : Bool) (i : Nat) : MmM Unit := do
  let e ← word parent i
  if e &&& pgPresent = 0 then setWord child i 0
  else if e &&& pgHuge ≠ 0 then setWord child i e
  else setWord child i (e &&& pageMask ||| tableFlags user)

def cloneTableRw (parent : UInt64) (user : Bool) : MmM UInt64 := do
  let child ← vmmAllocPage
  if child = 0 then return 0
  forRange (rwEntry parent child user) 0 512
  return child

/-- The body of the loop of `clone_pt_cow`, and of the innermost loop of `vmm_clone_pml4`. -/
def cowEntry (parent child : UInt64) (i : Nat) : MmM Unit := do
  let e ← word parent i
  if e &&& pgPresent = 0 then setWord child i 0
  else if e &&& pgUser ≠ 0 then
    setWord parent i (e &&& ~~~pgWrite)
    setWord child i (e &&& ~~~pgWrite)
  else setWord child i e

def clonePtCow (parent : UInt64) : MmM UInt64 := do
  let child ← vmmAllocPage
  if child = 0 then return 0
  forRange (cowEntry parent child) 0 512
  return child

/-- The body of the loops over a table above the last level: `copy` makes a table for the child, and `descend` goes
through it once more. `some ()` is the early `return 0`. -/
def cloneEntry (copy : UInt64 → MmM UInt64) (descend : UInt64 → UInt64 → MmM (Option Unit)) (parent child : UInt64)
    (i : Nat) : MmM (Option Unit) := do
  let e ← word parent i
  if e &&& pgPresent = 0 then
    setWord child i 0
    return none
  if e &&& pgHuge ≠ 0 then
    setWord child i e
    return none
  let table ← copy (e &&& pageMask)
  if table = 0 then return some ()
  setWord child i (table &&& pageMask ||| pgPresent ||| pgWrite ||| pgUser)
  descend (e &&& pageMask) table

def cloneEntries (copy : UInt64 → MmM UInt64) (descend : UInt64 → UInt64 → MmM (Option Unit)) (n : Nat)
    (parent child : UInt64) : MmM (Option Unit) := searchM (cloneEntry copy descend parent child) 0 n

def clonePt (parent child : UInt64) : MmM (Option Unit) := do
  forRange (cowEntry parent child) 0 512
  return none

def clonePd : UInt64 → UInt64 → MmM (Option Unit) := cloneEntries clonePtCow clonePt 512

def clonePdpt : UInt64 → UInt64 → MmM (Option Unit) := cloneEntries (cloneTableRw · true) clonePd 512

/-- The body of the first loop of `vmm_clone_pml4`. -/
def highEntry (parent child : UInt64) (i : Nat) : MmM Unit := do
  let e ← word parent i
  setWord child i e

def vmmClonePml4 (parent : UInt64) : MmM UInt64 := do
  let child ← vmmAllocPage
  if child = 0 then return 0
  forRange (highEntry parent child) 256 256
  match ← cloneEntries (cloneTableRw · true) clonePdpt 256 parent child with
  | some () => return 0
  | none => return child

/-- The address of an entry: its table and its index. -/
def vmmPtLookup (pagePml4 virt : UInt64) : MmM (Option (UInt64 × Nat)) := do
  let e ← word pagePml4 (pml4Lookup virt)
  if e &&& pgPresent = 0 then return none
  let pdpt := e &&& pageMask
  let e ← word pdpt (pdptLookup virt)
  if e &&& pgPresent = 0 then return none
  let pd := e &&& pageMask
  let e ← word pd (pdLookup virt)
  if e &&& pgPresent = 0 then return none
  let pt := e &&& pageMask
  let e ← word pt (ptLookup virt)
  if e &&& pgPresent = 0 then return none
  return some (pt, ptLookup virt)

end SwiftBSD.Mm
