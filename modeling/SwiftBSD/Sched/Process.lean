import SwiftBSD.Sched.Switch
import SwiftBSD.User.Vma
import SwiftBSD.Vfs.File

namespace SwiftBSD.Sched
open Lib Mm User Vfs

/-- `frame` is the address of the registers an interrupt has saved. -/
structure Process where
  used : Bool
  pid : Int32
  state : ProcState
  exitCode : Int32
  parent : Int32
  frame : UInt64
  cr3 : UInt64
  kstack : UInt64
  heapStart : UInt64
  heapBreak : UInt64
  vmas : Vmas
  fds : Nat → File

/-- The descriptors that `vfs` works on are those of the running process: `vfs.fds` is set when a call of `vfs.c` starts. -/
structure Kernel (σ : Type) where
  procs : Nat → Process
  currentIdx : Nat
  nextPid : Int32
  nrProcs : Int
  machine : Machine
  vfs : VfsState σ
  syscallFramePtr : UInt64
  userRspSave : UInt64

abbrev KernelM (σ : Type) := Prog (Kernel σ)

variable {σ : Type}

def Kernel.current (s : Kernel σ) : Process := s.procs s.currentIdx

def Kernel.setProc (s : Kernel σ) (idx : Nat) (p : Process) : Kernel σ :=
  { s with procs := Function.update s.procs idx p }

def onMachine {α : Type} (x : MmM α) : KernelM σ α := fun s =>
  (x.run s.machine).map fun (a, machine) => (a, { s with machine })

def onVfs {α : Type} (x : VfsM σ α) : KernelM σ α := fun s =>
  (x.run { s.vfs with fds := s.current.fds }).map fun (a, vfs) =>
    (a, { s.setProc s.currentIdx { s.current with fds := vfs.fds } with vfs })

def freeProc (procs : Nat → Process) : Option Nat := firstFrom (fun i => !(procs i).used) 0 maxProcs

def pidTaken (procs : Nat → Process) (pid : Int32) : Bool :=
  (firstFrom (fun i => (procs i).used && (procs i).pid == pid) 0 maxProcs).isSome

/-- `next_pid` starts again at 1 when it wraps around. -/
def pidAllocTries : Nat → KernelM σ Int32
  | 0 => return -1
  | n+1 => do
      let s ← get
      let pid := s.nextPid
      let nextPid := if pid + 1 ≤ 0 then 1 else pid + 1
      set { s with nextPid }
      if pidTaken s.procs pid then pidAllocTries n else return pid

def pidAlloc : KernelM σ Int32 := pidAllocTries 65536

def kstackSize : UInt64 := 4096

def wordAt (addr : UInt64) : MmM UInt64 := word addr (addr.toNat % 4096 / 8)

def setWordAt (addr value : UInt64) : MmM Unit := setWord addr (addr.toNat % 4096 / 8) value

/-- The registers in the order of the exception frame. The frame has 22 words, and the last five lie behind the stack. -/
def buildIrqFrame (sysframe raxVal childKstack userRsp : UInt64) : MmM UInt64 := do
  let frame := childKstack + kstackSize - 15 * 8 - 2 * 8
  let slot (offset : UInt64) : MmM UInt64 := wordAt (sysframe + offset)
  let r11 ← slot 0
  let r10 ← slot 8
  let r9 ← slot 16
  let r8 ← slot 24
  let rcx ← slot 32
  let rdx ← slot 40
  let rsi ← slot 48
  let rdi ← slot 56
  let words : List UInt64 :=
    [raxVal, 0, rcx, rdx, rdi, rsi, 0, r8, r9, r10, r11, 0, 0, 0, 0, 0, 0, rcx, 0x23, 0x202, userRsp, 0x1B]
  forRange (fun i => setWordAt (frame + 8 * .ofNat i) (words.getD i 0)) 0 22
  return frame

/-- The child's entry of the process table. The descriptors are copied as they are. -/
def childOf (parent : Process) (pid : Int32) (cr3 kstack frame : UInt64) : Process where
  used := true
  pid := pid
  state := .ready
  exitCode := 0
  parent := parent.pid
  frame := frame
  cr3 := cr3
  kstack := kstack
  heapStart := parent.heapStart
  heapBreak := parent.heapBreak
  vmas := parent.vmas
  fds := parent.fds

/-- The first process runs on `page_pml4`. -/
def Kernel.parentCr3 (pagePml4 : UInt64) (s : Kernel σ) : UInt64 := if s.current.cr3 = 0 then pagePml4 else s.current.cr3

def procFork (pagePml4 : UInt64) : KernelM σ Int32 := do
  let s ← get
  let childCr3 ← onMachine (vmmClonePml4 (s.parentCr3 pagePml4))
  if childCr3 = 0 then return -1
  let kstack ← onMachine pageAlloc
  if kstack = 0 then return -1
  let childFrame ← onMachine (buildIrqFrame s.syscallFramePtr 0 kstack s.userRspSave)
  match freeProc (← get).procs with
  | none => return -1
  | some idx =>
      let pid ← pidAlloc
      if pid < 0 then return -1
      modify fun s =>
        { s.setProc idx (childOf s.current pid childCr3 kstack childFrame) with nrProcs := s.nrProcs + 1 }
      return pid

/-- The process waits for the switch to another one, and never runs again. -/
def procExit (code : Int32) : KernelM σ Unit := modify fun s =>
  s.setProc s.currentIdx { s.current with exitCode := code, state := .zombie }

inductive WaitResult
  | reaped (pid code : Int32)
  | noChild
  | yields
deriving DecidableEq

def isZombieOf (pid : Int32) (p : Process) : Bool := p.used && decide (p.state = .zombie) && p.parent == pid

/-- One pass of the loop of `proc_wait`. -/
def procWait : KernelM σ WaitResult := do
  let s ← get
  let myPid := s.current.pid
  match firstFrom (fun i => isZombieOf myPid (s.procs i)) 0 maxProcs with
  | some i =>
      set { s.setProc i { s.procs i with used := false } with nrProcs := s.nrProcs - 1 }
      return .reaped (s.procs i).pid (s.procs i).exitCode
  | none =>
      match firstFrom (fun i => (s.procs i).used && (s.procs i).parent == myPid) 0 maxProcs with
      | some _ => return .yields
      | none => return .noChild

def Kernel.saveFrame (s : Kernel σ) (frame : UInt64) : Kernel σ :=
  if s.current.used then s.setProc s.currentIdx { s.current with frame } else s

/-- The next process that is ready; if there is none the search has gone round once and one slot further. -/
def Kernel.switchNext (s : Kernel σ) : Kernel σ :=
  let slot (tries : Nat) := (s.currentIdx + tries) % maxProcs
  match firstFrom (fun tries => (s.procs (slot tries)).used && decide ((s.procs (slot tries)).state = .ready)) 1 maxProcs with
  | none => { s with currentIdx := slot (maxProcs + 1) }
  | some tries =>
      let p := s.procs (slot tries)
      if slot tries = s.currentIdx ∨ p.cr3 = 0 then { s with currentIdx := slot tries }
      else { s with currentIdx := slot tries, machine := { s.machine with cr3 := p.cr3 } }

/-- `sched_irq_return`: `frame` is where the interrupt has saved the registers of the running process. -/
def switchProc (frame : UInt64) : KernelM σ Unit := modify fun s => (s.saveFrame frame).switchNext

inductive ProcEvent
  | fork (pid : Int32)
  | exit (code : Int32)
  | wait (result : WaitResult)
  | switch (frame : UInt64)
deriving DecidableEq

/-- The running process forks, exits or waits, or another process is switched to. -/
inductive ProcStep (pagePml4 : UInt64) (s : Kernel σ) : ProcEvent → Kernel σ → Prop
  | fork {pid : Int32} {t : Kernel σ} (run : (procFork pagePml4).run s = some (pid, t)) : ProcStep pagePml4 s (.fork pid) t
  | exit {code : Int32} {t : Kernel σ} (run : (procExit code).run s = some ((), t)) : ProcStep pagePml4 s (.exit code) t
  | wait {result : WaitResult} {t : Kernel σ} (run : procWait.run s = some (result, t)) :
      ProcStep pagePml4 s (.wait result) t
  | switch {frame : UInt64} {t : Kernel σ} (run : (switchProc frame).run s = some ((), t)) :
      ProcStep pagePml4 s (.switch frame) t

inductive ProcRun (pagePml4 : UInt64) (s : Kernel σ) : List ProcEvent → Kernel σ → Prop
  | start : ProcRun pagePml4 s [] s
  | step {events : List ProcEvent} {e : ProcEvent} {t u : Kernel σ} (before : ProcRun pagePml4 s events t)
      (step : ProcStep pagePml4 t e u) : ProcRun pagePml4 s (events ++ [e]) u

end SwiftBSD.Sched
