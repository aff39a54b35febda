import SwiftBSD.Sched.Process

namespace SwiftBSD.Sched
open Lib

variable {σ : Type}

def Process.runnable (p : Process) : Bool := p.used && decide (p.state = .ready)

/-- The values of `tries` and `current_idx` after the `do`-`while` loop. -/
def searchReady (procs : Nat → Process) (tries idx : Nat) : Nat × Nat :=
  let idx := (idx + 1) % maxProcs
  let tries := tries + 1
  if tries ≤ maxProcs ∧ (procs idx).runnable = false then searchReady procs tries idx else (tries, idx)
termination_by maxProcs + 1 - tries

/-- `frame` is what the stub loads the registers from; `kernelRsp` is what `set_kernel_stack` stores, if it is called. -/
structure IrqReturn where
  frame : UInt64
  kernelRsp : Option UInt64

/-- The whole call; `switchProc` is what it does to the kernel. -/
def schedIrqReturnFrame (frame : UInt64) : KernelM σ IrqReturn := do
  modify fun s => s.saveFrame frame
  let s ← get
  let prev := s.currentIdx
  let (tries, idx) := searchReady s.procs 0 prev
  set { s with currentIdx := idx }
  if maxProcs < tries ∨ idx = prev then return ⟨frame, none⟩
  let p := s.procs idx
  if p.cr3 ≠ 0 then modify fun s => { s with machine := { s.machine with cr3 := p.cr3 } }
  return ⟨p.frame, some (p.kstack + kstackSize)⟩

end SwiftBSD.Sched
