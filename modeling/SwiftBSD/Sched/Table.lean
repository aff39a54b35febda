import SwiftBSD.Sched.Process

namespace SwiftBSD.Sched
open Lib Mm User Vfs

variable {σ : Type}

def schedInit : KernelM σ Unit := modify fun s =>
  { s with
    procs := fun i => if i < maxProcs then { s.procs i with used := false } else s.procs i
    currentIdx := 0
    nextPid := 1
    nrProcs := 0 }

/-- What `iretq` takes off the kernel stack of a new process, below 17 zeros. -/
def entryFrame (entry rsp : UInt64) : List UInt64 := List.replicate 17 0 ++ [entry, 0x23, 0x202, rsp, 0x1B]

def createdProc (old : Process) (pid : Int32) (cr3 kstack frame : UInt64) : Process where
  used := true
  pid := pid
  state := .ready
  exitCode := 0
  parent := 1
  frame := frame
  cr3 := cr3
  kstack := kstack
  heapStart := 0x10000000
  heapBreak := 0x10000000
  vmas := ⟨fun i => if i < vmaMax then { old.vmas.entry i with used := false } else old.vmas.entry i, 0⟩
  fds := vfsInit old.fds

def procCreate (entry rsp cr3 kstack : UInt64) : KernelM σ Int32 := do
  match freeProc (← get).procs with
  | none => return -1
  | some idx =>
      let pid ← pidAlloc
      if pid < 0 then return -1
      onMachine (forRange (fun i => setWordAt (kstack + 8 * .ofNat i) 0) 0 512)
      let frame := kstack + kstackSize - 22 * 8
      onMachine (forRange (fun i => setWordAt (frame + 8 * .ofNat i) ((entryFrame entry rsp).getD i 0)) 0 22)
      modify fun s => { s.setProc idx (createdProc (s.procs idx) pid cr3 kstack frame) with nrProcs := s.nrProcs + 1 }
      return pid

/-- The states after `sched_init` and calls on the process table, of whatever processes. -/
inductive TableRun (pagePml4 : UInt64) (s : Kernel σ) : Kernel σ → Prop
  | start {t : Kernel σ} (run : schedInit.run s = some ((), t)) : TableRun pagePml4 s t
  | create {t u : Kernel σ} {entry rsp cr3 kstack : UInt64} {pid : Int32} (before : TableRun pagePml4 s t)
      (run : (procCreate entry rsp cr3 kstack).run t = some (pid, u)) : TableRun pagePml4 s u
  | proc {t u : Kernel σ} {e : ProcEvent} (before : TableRun pagePml4 s t) (step : ProcStep pagePml4 t e u) : TableRun pagePml4 s u

/-- The access to the process table that comes next, with what the loop has read so far. -/
inductive WaitPoint
  | used (i : Nat)
  | state (i : Nat)
  | parent (i : Nat)
  | pid (i : Nat)
  | code (i : Nat) (pid : Int32)
  | release (i : Nat) (pid code : Int32)
  | count (pid code : Int32)
  | childUsed (i : Nat)
  | childParent (i : Nat)
  | yields

structure WaitCall where
  myPid : Int32
  point : WaitPoint

inductive WaitProgress
  | goes (point : WaitPoint)
  | returns (result : WaitResult)

def waitIter (c : WaitCall) : KernelM σ WaitProgress := do
  let s ← get
  match c.point with
  | .used i =>
      if maxProcs ≤ i then return .goes (.childUsed 0)
      else if (s.procs i).used then return .goes (.state i)
      else return .goes (.used (i+1))
  | .state i => if (s.procs i).state = .zombie then return .goes (.parent i) else return .goes (.used (i+1))
  | .parent i => if (s.procs i).parent = c.myPid then return .goes (.pid i) else return .goes (.used (i+1))
  | .pid i => return .goes (.code i (s.procs i).pid)
  | .code i pid => return .goes (.release i pid (s.procs i).exitCode)
  | .release i pid code =>
      set (s.setProc i { s.procs i with used := false })
      return .goes (.count pid code)
  | .count pid code =>
      set { s with nrProcs := s.nrProcs - 1 }
      return .returns (.reaped pid code)
  | .childUsed i =>
      if maxProcs ≤ i then return .returns .noChild
      else if (s.procs i).used then return .goes (.childParent i)
      else return .goes (.childUsed (i+1))
  | .childParent i => if (s.procs i).parent = c.myPid then return .goes .yields else return .goes (.childUsed (i+1))
  | .yields => return .goes (.used 0)

/-- The kernel, and for each slot the call of `proc_wait` that its process is in. -/
structure Waits (σ : Type) where
  kernel : Kernel σ
  calls : Nat → Option WaitCall

def Waits.setCall (s : Waits σ) (i : Nat) (call : Option WaitCall) : Waits σ := { s with calls := Function.update s.calls i call }

inductive ExitEvent
  | forked (parent child : Int32)
  | exited (slot : Nat) (pid code : Int32)
  | returned (parent pid code : Int32)
deriving DecidableEq

/-- The running process is ready: only a process that exits leaves the kernel without one, and it does nothing any more. -/
structure Waits.Runs (s : Waits σ) (call : Option WaitCall) : Prop where
  used : s.kernel.current.used = true
  ready : s.kernel.current.state = .ready
  slot : s.kernel.currentIdx < maxProcs
  call : s.calls s.kernel.currentIdx = call

/-- A fork or an exit is not interrupted. -/
inductive ExitStep (pagePml4 : UInt64) (s : Waits σ) : List ExitEvent → Waits σ → Prop
  | fork {pid : Int32} {t : Kernel σ} (runs : s.Runs none) (run : (procFork pagePml4).run s.kernel = some (pid, t)) :
      ExitStep pagePml4 s (if pid = -1 then [] else [.forked s.kernel.current.pid pid]) { s with kernel := t }
  | exit {code : Int32} {t : Kernel σ} (runs : s.Runs none) (run : (procExit code).run s.kernel = some ((), t)) :
      ExitStep pagePml4 s [.exited s.kernel.currentIdx s.kernel.current.pid code] { s with kernel := t }
  | wait (runs : s.Runs none) :
      ExitStep pagePml4 s [] (s.setCall s.kernel.currentIdx (some ⟨s.kernel.current.pid, .used 0⟩))
  | goes {c : WaitCall} {point : WaitPoint} {t : Kernel σ} (runs : s.Runs (some c))
      (run : (waitIter c).run s.kernel = some (.goes point, t)) :
      ExitStep pagePml4 s [] (Waits.setCall ⟨t, s.calls⟩ s.kernel.currentIdx (some { c with point }))
  | reaps {c : WaitCall} {pid code : Int32} {t : Kernel σ} (runs : s.Runs (some c))
      (run : (waitIter c).run s.kernel = some (.returns (.reaped pid code), t)) :
      ExitStep pagePml4 s [.returned c.myPid pid code] (Waits.setCall ⟨t, s.calls⟩ s.kernel.currentIdx none)
  | childless {c : WaitCall} {t : Kernel σ} (runs : s.Runs (some c))
      (run : (waitIter c).run s.kernel = some (.returns .noChild, t)) :
      ExitStep pagePml4 s [] (Waits.setCall ⟨t, s.calls⟩ s.kernel.currentIdx none)
  | switch {frame : UInt64} {t : Kernel σ} (run : (switchProc frame).run s.kernel = some ((), t)) :
      ExitStep pagePml4 s [] { s with kernel := t }

inductive ExitRun (pagePml4 : UInt64) (s : Waits σ) : List ExitEvent → Waits σ → Prop
  | start : ExitRun pagePml4 s [] s
  | step {events more : List ExitEvent} {t u : Waits σ} (before : ExitRun pagePml4 s events t)
      (step : ExitStep pagePml4 t more u) : ExitRun pagePml4 s (events ++ more) u

/-- The first process, which `kmain` has created, is the only one. -/
structure Waits.Booted (s : Waits σ) : Prop where
  slot : s.kernel.currentIdx < maxProcs
  used : ∀ i < maxProcs, (s.kernel.procs i).used = true ↔ i = s.kernel.currentIdx
  pid : s.kernel.current.pid = 1
  parent : s.kernel.current.parent = 1
  ready : s.kernel.current.state = .ready
  nextPid : s.kernel.nextPid = 2
  calls : ∀ i, s.calls i = none

end SwiftBSD.Sched
