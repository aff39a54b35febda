import SwiftBSD.Mm.Cow
import SwiftBSD.Sched.Process

namespace SwiftBSD.User
open Lib Mm Vfs Sched

def pfPresent : UInt64 := 1
def pfWrite : UInt64 := 2
def pfUser : UInt64 := 4

/-- The branch for a write to a page that is not present. -/
def zeroFault (cr2 : UInt64) (user : Bool) : MmM Unit := do
  let page := cr2 &&& pageMask
  let phys ← vmmAllocPage
  if phys = 0 then failure
  else vmmMap page phys (pgPresent ||| pgWrite ||| pgNx ||| (if user then pgUser else 0))

/-- The kernel copies bytes to an address that is mapped. -/
def storeBytes (addr : UInt64) (bytes : List UInt8) : MmM Unit :=
  forRange (fun i => do
    let t ← translated (addr + .ofNat i)
    setByteAt t.phys (bytes.getD i 0)) 0 bytes.length

def faultFlags (v : Vma) (write : Bool) : UInt64 :=
  let flags := pgPresent ||| pgUser
  let flags := if write ∧ v.prot &&& 2 ≠ 0 then flags ||| pgWrite else flags
  if v.prot &&& 4 = 0 then flags ||| pgNx else flags

section Handler
variable {σ : Type} [Fs.BlockStore σ]

/-- `vfs_read` into memory. A pipe that has nothing to read waits, and the handler does not come back from there. -/
def readInto (fd : Int) (addr : UInt64) (sz : UInt32) : KernelM σ Int := do
  match ← onVfs (vfsRead fd sz) with
  | .done ret bytes =>
      onMachine (storeBytes addr bytes)
      return ret
  | _ => failure

/-- The page of a file mapping is read from the file; an anonymous one stays as `vmm_alloc_page` has made it. -/
def fillPage (v : Vma) (page : UInt64) : KernelM σ Unit := do
  if 0 ≤ v.fd then
    let foff := v.foff + (page - v.start)
    let _ ← onVfs (vfsLseek v.fd.toInt foff 0)
    let _ ← readInto v.fd.toInt page 4096

/-- The branch for a page of a mapping. -/
def vmaFault (v : Vma) (cr2 : UInt64) (write : Bool) : KernelM σ Unit := do
  let page := cr2 &&& pageMask
  let phys ← onMachine vmmAllocPage
  if phys = 0 then failure
  else
    onMachine (vmmMap page phys (faultFlags v write))
    fillPage v page

def covers (v : Vma) (cr2 : UInt64) : Bool := v.used && decide (v.start ≤ cr2) && decide (cr2 < v.stop)

def coveringVma (t : Vmas) (cr2 : UInt64) : Option Nat := firstFrom (fun i => covers (t.entry i) cr2) 0 vmaMax

def exceptionHandler (cr2 errorCode : UInt64) : KernelM σ Unit := do
  let present := errorCode &&& pfPresent ≠ 0
  let write := errorCode &&& pfWrite ≠ 0
  let user := errorCode &&& pfUser ≠ 0
  if present ∧ write ∧ 0x1000000 ≤ cr2 then onMachine (cowFault cr2)
  else if ¬present ∧ write ∧ 0x1000000 ≤ cr2 then onMachine (zeroFault cr2 user)
  else if ¬present ∧ 0x1000000 ≤ cr2 then
    let vmas := (← get).current.vmas
    match coveringVma vmas cr2 with
    | some i => vmaFault (vmas.entry i) cr2 write
    | none => failure
  else failure

def canonical (virt : UInt64) : Bool := virt < 0x800000000000 || 0xFFFF800000000000 ≤ virt

/-- Where an address is mapped; the kernel faults if it is not. -/
def kernelAccess (virt errorCode : UInt64) : KernelM σ Translation := do
  let m := (← get).machine
  if !canonical virt then failure
  else match translate m.mem m.cr3 virt with
    | some t => return t
    | none =>
        exceptionHandler virt errorCode
        onMachine (translated virt)

def kernelLoad (virt : UInt64) : KernelM σ UInt8 := do
  let t ← kernelAccess virt 0
  return byteAt (← get).machine.mem t.phys

def kernelStore (virt : UInt64) (b : UInt8) : KernelM σ Unit := do
  let t ← kernelAccess virt pfWrite
  onMachine (setByteAt t.phys b)

end Handler

end SwiftBSD.User
