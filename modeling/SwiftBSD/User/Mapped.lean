import SwiftBSD.User.Fault

namespace SwiftBSD.User.Mapped
open Lib Mm Vfs Sched

section Calls
variable {σ : Type} [Fs.BlockStore σ]

def setVmas (t : Vmas) : KernelM σ Unit := modify fun s => s.setProc s.currentIdx { s.current with vmas := t }

/-- The loop never ends if `p` wraps around before it reaches `stop`. -/
def forPages (body : UInt64 → KernelM σ Unit) (start stop : UInt64) : KernelM σ Unit :=
  if start.toNat + 4096 * pageCount start stop < 2 ^ 64 then
    forRange (fun k => body (start + 4096 * .ofNat k)) 0 (pageCount start stop)
  else failure

/-- `memcpy` from memory that may not be present. -/
def loadBytes (addr : UInt64) : Nat → Nat → KernelM σ (List UInt8)
  | _, 0 => return []
  | i, n+1 => do
      let b ← kernelLoad (addr + .ofNat i)
      let rest ← loadBytes addr (i+1) n
      return b :: rest

def writeFrom (fd : Int) (bytes : List UInt8) : KernelM σ Int := do
  match ← onVfs (vfsWrite fd bytes) with
  | .done ret _ => return ret
  | _ => failure

def writebackPage (pagePml4 : UInt64) (v : Vma) (p : UInt64) : KernelM σ Unit := do
  match ← onMachine (vmmPtLookup pagePml4 p) with
  | none => return
  | some (pt, i) =>
      if (← onMachine (word pt i)) &&& pgDirty ≠ 0 then
        let foff := v.foff + (p - v.start)
        let _ ← onVfs (vfsLseek v.fd.toInt foff 0)
        let tmp ← loadBytes p 0 4096
        let _ ← writeFrom v.fd.toInt tmp
        onMachine do setWord pt i ((← word pt i) &&& ~~~pgDirty)

def vmaWritebackDirty (pagePml4 start stop : UInt64) (v : Vma) : KernelM σ Unit :=
  if v.fd < 0 ∨ v.flags &&& 1 = 0 then return
  else forPages (writebackPage pagePml4 v) start stop

def vmaUnmapPages (pagePml4 start stop : UInt64) : KernelM σ Unit :=
  forPages (fun p => onMachine (vmmUnmap pagePml4 p)) start stop

/-- `flags` and `fd` are taken from the two halves of `arg3`, and `offset` from what lies behind it on the stack. -/
def scMmap (addr length arg3 offset : UInt64) : KernelM σ UInt64 := do
  let prot := arg3.toUInt32.toInt32
  let flags := arg3.toUInt32.toInt32
  let fd := (arg3 >>> 32).toUInt32.toInt32
  if length = 0 then return mapFailed
  let length := roundUp length
  let t := (← get).current.vmas
  match vmaAllocSlot t with
  | none => return mapFailed
  | some vmaIdx =>
      let addr := if addr = 0 then vmaHint t else addr
      let v : Vma := ⟨addr, addr + length, prot, flags, fd, if 0 ≤ fd then offset else 0, true⟩
      setVmas ⟨Function.update t.entry vmaIdx v, t.count + 1⟩
      return addr

def unmapSlot (pagePml4 : UInt64) (i : Nat) : KernelM σ Unit := do
  let v := (← get).current.vmas.entry i
  vmaWritebackDirty pagePml4 v.start v.stop v
  vmaUnmapPages pagePml4 v.start v.stop
  setVmas (vmaTryMerge (freeSlot (← get).current.vmas i) i)

/-- The loop of `SC_MUNMAP` from slot `i` on, as in `forOverlapping`. -/
def unmapFrom (pagePml4 addr stop : UInt64) : Nat → Nat → KernelM σ Bool
  | 0, _ => failure
  | fuel+1, i => do
      if vmaMax ≤ i then return true
      let t := (← get).current.vmas
      if overlaps (t.entry i) addr stop then
        match cutOut t i addr stop with
        | none => return false
        | some (j, t) =>
            setVmas t
            unmapSlot pagePml4 j
            unmapFrom pagePml4 addr stop fuel (j + 1)
      else unmapFrom pagePml4 addr stop fuel (i + 1)

/-- `fuel` bounds the number of iterations. -/
def scMunmap (pagePml4 : UInt64) (fuel : Nat) (addr length : UInt64) : KernelM σ UInt64 := do
  if length = 0 then return 0
  if ← unmapFrom pagePml4 addr (addr + roundUp length) fuel 0 then return 0 else return mapFailed

def syncSlot (pagePml4 addr stop : UInt64) (i : Nat) : KernelM σ Unit := do
  let v := (← get).current.vmas.entry i
  if overlaps v addr stop then
    let start := if v.start < addr then addr else v.start
    let stop := if stop < v.stop then stop else v.stop
    vmaWritebackDirty pagePml4 start stop v

def scMsync (pagePml4 addr length : UInt64) : KernelM σ UInt64 := do
  if length = 0 then return 0
  forRange (syncSlot pagePml4 addr (addr + roundUp length)) 0 vmaMax
  return 0

def allows (write : Bool) (t : Translation) : Bool := t.user && (!write || t.write)

/-- An access that faults is made again when the handler returns. -/
def userAccess (virt : UInt64) (write : Bool) : KernelM σ Translation := do
  let errorCode := if write then pfUser ||| pfWrite else pfUser
  let m := (← get).machine
  if !canonical virt then failure
  else match translate m.mem m.cr3 virt with
    | some t =>
        if allows write t then return t
        else
          exceptionHandler virt (errorCode ||| pfPresent)
          let t ← onMachine (translated virt)
          if allows write t then return t else failure
    | none =>
        exceptionHandler virt errorCode
        let t ← onMachine (translated virt)
        if allows write t then return t else failure

/-- The entry of a page of 4 KB is marked. -/
def markDirty (virt : UInt64) : MmM Unit := do
  let t ← translated virt
  if t.level = 0 then
    match ← vmmPtLookup (← get).cr3 virt with
    | none => return
    | some (pt, i) => setWord pt i ((← word pt i) ||| pgDirty)

def loadByte (virt : UInt64) : KernelM σ UInt8 := do
  let t ← userAccess virt false
  return byteAt (← get).machine.mem t.phys

def storeByte (virt : UInt64) (b : UInt8) : KernelM σ Unit := do
  let t ← userAccess virt true
  onMachine (setByteAt t.phys b)
  onMachine (markDirty virt)

inductive FileCall
  | open_ (path : List UInt8) (flags : UInt32)
  | close (fd : Int)
  | dup2 (oldfd newfd : Int)
  | read (fd : Int) (sz : UInt32)
  | write (fd : Int) (buf : List UInt8)

def FileCall.exec : FileCall → VfsM σ Progress
  | .open_ path flags => return .done (← vfsOpen path flags) []
  | .close fd => return .done (← vfsClose fd) []
  | .dup2 oldfd newfd => return .done (← vfsDup2 oldfd newfd) []
  | .read fd sz => vfsRead fd sz
  | .write fd buf => vfsWrite fd buf

/-- What touches the memory of the process. A handler that writes to a page leaves it dirty as well. -/
inductive PagingCall
  | mmap (addr length arg3 offset : UInt64)
  | munmap (addr length : UInt64)
  | msync (addr length : UInt64)
  | fault (cr2 errorCode : UInt64)
  | load (virt : UInt64)
  | store (virt : UInt64) (b : UInt8)
  | dirty (virt : UInt64)

def PagingCall.exec (pagePml4 : UInt64) (fuel : Nat) : PagingCall → KernelM σ Unit
  | .mmap addr length arg3 offset => do let _ ← scMmap addr length arg3 offset
  | .munmap addr length => do let _ ← scMunmap pagePml4 fuel addr length
  | .msync addr length => do let _ ← scMsync pagePml4 addr length
  | .fault cr2 errorCode => exceptionHandler cr2 errorCode
  | .load virt => do let _ ← loadByte virt
  | .store virt b => storeByte virt b
  | .dirty virt => onMachine (markDirty virt)

inductive MapEvent
  | file (call : FileCall) (result : Progress)
  | paging (call : PagingCall)

inductive MapStep (pagePml4 : UInt64) (s : Kernel σ) : MapEvent → Kernel σ → Prop
  | file {call : FileCall} {result : Progress} {t : Kernel σ} (run : (onVfs call.exec).run s = some (result, t)) :
      MapStep pagePml4 s (.file call result) t
  | paging {call : PagingCall} {fuel : Nat} {t : Kernel σ} (run : (call.exec pagePml4 fuel).run s = some ((), t)) :
      MapStep pagePml4 s (.paging call) t

/-- The states reached by steps that are all allowed. -/
inductive MapRun (pagePml4 : UInt64) (Allowed : Kernel σ → MapEvent → Prop) (s : Kernel σ) : List MapEvent → Kernel σ → Prop
  | start : MapRun pagePml4 Allowed s [] s
  | step {events : List MapEvent} {e : MapEvent} {t u : Kernel σ} (before : MapRun pagePml4 Allowed s events t) (allowed : Allowed t e)
      (step : MapStep pagePml4 t e u) : MapRun pagePml4 Allowed s (events ++ [e]) u

/-- The calls on files alone, in a process that maps nothing. -/
inductive FileRun (v : VfsState σ) : List (FileCall × Progress) → VfsState σ → Prop
  | start : FileRun v [] v
  | call {calls : List (FileCall × Progress)} {call : FileCall} {result : Progress} {w x : VfsState σ} (before : FileRun v calls w)
      (run : call.exec.run w = some (result, x)) : FileRun v (calls ++ [(call, result)]) x

end Calls

end SwiftBSD.User.Mapped
