import SwiftBSD.Lib.Prog

namespace SwiftBSD.Sched
open Lib

def maxProcs : Nat := 64

inductive ProcState
  | ready
  | zombie
  | waiting
deriving DecidableEq

/-- Where a process stands between two returns to user mode. From `returned` on it is in the stub: `rax` holds the value of
`syscall_handler`, then the value is in `retval_save` and the registers are popped, then `rax` and at last `rsp` are
loaded. -/
inductive Phase
  | user
  | handler (num : UInt64)
  | exiting
  | returned (rax : UInt64)
  | stored
  | loaded (rax : UInt64)
  | switched (rax rsp : UInt64)
deriving DecidableEq

/-- What an interrupt saves of the processor; `who` is the slot of the process it belongs to. -/
structure Context where
  who : Nat
  phase : Phase
  interrupts : Bool

structure Proc where
  used : Bool
  pid : Int
  state : ProcState
  parent : Int
  frame : Context

structure Sys where
  procs : Nat → Proc
  currentIdx : Nat
  cpu : Context
  userRspSave : UInt64
  retvalSave : UInt64

def Proc.runnable (p : Proc) : Bool := p.used && decide (p.state = .ready)

def slotAlloc (procs : Nat → Proc) : Option Nat := firstFrom (fun i => !(procs i).used) 0 maxProcs

/-- If no process is ready the search has gone round once and one slot further. -/
def schedIrqReturn (s : Sys) : Sys :=
  let prev := s.currentIdx
  let procs :=
    if (s.procs prev).used then Function.update s.procs prev { s.procs prev with frame := s.cpu } else s.procs
  match firstFrom (fun tries => (procs ((prev + tries) % maxProcs)).runnable) 1 maxProcs with
  | none => { s with procs, currentIdx := (prev + maxProcs + 1) % maxProcs }
  | some tries =>
      let idx := (prev + tries) % maxProcs
      { s with procs, currentIdx := idx, cpu := if idx = prev then s.cpu else (procs idx).frame }

/-- The calls in which `sched_yield` is reached: `SC_YIELD`, `SC_READ`, `SC_WRITE`, `SC_WAIT`, and the write-back to a
pipe of `SC_MUNMAP` and `SC_MSYNC`. -/
def mayYield (num : UInt64) : Bool := num ∈ [2, 4, 5, 13, 17, 18]

/-- `SC_EXIT` and `SC_HALT` do not come back. -/
def comesBack (num : UInt64) : Bool := num ∉ [8, 10]

/-- What the process on the processor does next. A `fault` is a page fault of the kernel: `exception_handler` ends with
`sti`, and a tick comes before its `iretq`. -/
inductive Move
  | syscall (num rsp : UInt64)
  | yield
  | fault
  | tick
  | handlerReturn (value : UInt64)
  | fork (pid : Int)
  | reap (slot : Nat)
  | exec
  | exit
  | store
  | load
  | switchStack
  | sysret

/-- The processor goes on in the same process. -/
def Sys.goto (s : Sys) (phase : Phase) (interrupts : Bool) : Sys := { s with cpu := { s.cpu with phase, interrupts } }

/-- A move that is not possible gives `none`. -/
def next (s : Sys) : Move → Option Sys
  | .syscall num rsp => match s.cpu.phase with
      | .user => some { s.goto (.handler num) false with userRspSave := rsp }
      | _ => none
  | .yield => match s.cpu.phase with
      | .handler num => if mayYield num then some (schedIrqReturn (s.goto (.handler num) true)) else none
      | _ => none
  | .fault => match s.cpu.phase with
      | .handler _ => some (schedIrqReturn s)
      | _ => none
  | .tick => if s.cpu.interrupts then some (schedIrqReturn s) else none
  | .handlerReturn value => match s.cpu.phase with
      | .handler num => if comesBack num then some (s.goto (.returned value) s.cpu.interrupts) else none
      | _ => none
  | .fork pid => match s.cpu.phase, slotAlloc s.procs with
      | .handler num, some idx =>
          let child : Proc := ⟨true, pid, .ready, (s.procs s.currentIdx).pid, ⟨idx, .user, true⟩⟩
          if num = 12 then some { s with procs := Function.update s.procs idx child } else none
      | _, _ => none
  | .reap slot => match s.cpu.phase with
      | .handler num =>
          let p := s.procs slot
          if num = 13 ∧ slot < maxProcs ∧ p.used ∧ p.state = .zombie ∧ p.parent = (s.procs s.currentIdx).pid then
            some { s with procs := Function.update s.procs slot { p with used := false } }
          else none
      | _ => none
  | .exec => match s.cpu.phase with
      | .handler num => if num = 7 then some (s.goto .user true) else none
      | _ => none
  | .exit => match s.cpu.phase with
      | .handler num =>
          let p := s.procs s.currentIdx
          if num = 8 then
            some { s.goto .exiting true with procs := Function.update s.procs s.currentIdx { p with state := .zombie } }
          else none
      | _ => none
  | .store => match s.cpu.phase with
      | .returned rax => some { s.goto .stored s.cpu.interrupts with retvalSave := rax }
      | _ => none
  | .load => match s.cpu.phase with
      | .stored => some (s.goto (.loaded s.retvalSave) s.cpu.interrupts)
      | _ => none
  | .switchStack => match s.cpu.phase with
      | .loaded rax => some (s.goto (.switched rax s.userRspSave) s.cpu.interrupts)
      | _ => none
  | .sysret => match s.cpu.phase with
      | .switched _ _ => some (s.goto .user true)
      | _ => none

inductive Event
  | entered (who : Nat) (rsp : UInt64)
  | computed (who : Nat) (value : UInt64)
  | returned (who : Nat) (rsp rax : UInt64)
deriving DecidableEq

def Move.event (s : Sys) : Move → Option Event
  | .syscall _ rsp => some (.entered s.cpu.who rsp)
  | .handlerReturn value => some (.computed s.cpu.who value)
  | .sysret => match s.cpu.phase with
      | .switched rax rsp => some (.returned s.cpu.who rsp rax)
      | _ => none
  | _ => none

/-- How far the last call of a process has come. -/
inductive Call
  | none
  | entered (rsp : UInt64)
  | computed (rsp value : UInt64)
deriving DecidableEq

def Call.value (value : UInt64) : Call → Call
  | .entered rsp => .computed rsp value
  | _ => .none

/-- The newest event comes first. -/
def lastCall (p : Nat) : List Event → Call
  | [] => .none
  | .entered q rsp :: earlier => if q = p then .entered rsp else lastCall p earlier
  | .computed q value :: earlier => if q = p then (lastCall p earlier).value value else lastCall p earlier
  | .returned q _ _ :: earlier => if q = p then .none else lastCall p earlier

/-- Every return is the return of the process's own call. -/
def OwnReturns : List Event → Prop
  | [] => True
  | .returned p rsp rax :: earlier => lastCall p earlier = .computed rsp rax ∧ OwnReturns earlier
  | _ :: earlier => OwnReturns earlier

/-- Processes in user mode, one of them running. -/
structure Start (s : Sys) : Prop where
  slot : s.currentIdx < maxProcs
  runs : (s.procs s.currentIdx).runnable = true
  cpu : s.cpu = ⟨s.currentIdx, .user, true⟩
  frames : ∀ q, (s.procs q).used = true → (s.procs q).frame = ⟨q, .user, true⟩

/-- The runs whose moves are all allowed. -/
inductive Run (Allowed : Sys → Move → Prop) (s : Sys) : List Event → Sys → Prop
  | start : Run Allowed s [] s
  | step {events : List Event} {t u : Sys} {move : Move} (before : Run Allowed s events t) (allowed : Allowed t move)
      (step : next t move = some u) : Run Allowed s ((move.event t).toList ++ events) u

end SwiftBSD.Sched
