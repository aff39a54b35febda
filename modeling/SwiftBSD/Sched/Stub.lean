import SwiftBSD.Sched.Process

namespace SwiftBSD.Sched
open Lib Mm

variable {σ : Type}

/-- `rip` is the address behind the `syscall` instruction. -/
structure UserRegs where
  rax : UInt64
  rbx : UInt64
  rcx : UInt64
  rdx : UInt64
  rsi : UInt64
  rdi : UInt64
  rbp : UInt64
  rsp : UInt64
  r8 : UInt64
  r9 : UInt64
  r10 : UInt64
  r11 : UInt64
  r12 : UInt64
  r13 : UInt64
  r14 : UInt64
  r15 : UInt64
  rip : UInt64
  rflags : UInt64
deriving DecidableEq

/-- The instruction leaves `rip` in `rcx` and `rflags` in `r11`. -/
def UserRegs.syscall (r : UserRegs) : UserRegs := { r with rcx := r.rip, r11 := r.rflags }

/-- `syscall_entry` up to the call of `syscall_handler`; `kernelRsp` is `syscall_kernel_rsp`. -/
def syscallEntry (kernelRsp : UInt64) (r : UserRegs) : KernelM σ Unit := do
  let r := r.syscall
  let words : List UInt64 := [r.r11, r.r10, r.r9, r.r8, r.rcx, r.rdx, r.rsi, r.rdi]
  modify fun s => { s with userRspSave := r.rsp, syscallFramePtr := kernelRsp - 64 }
  onMachine (forRange (fun i => setWordAt (kernelRsp - 64 + 8 * .ofNat i) (words.getD i 0)) 0 8)

/-- What `sysretq` takes of `r11`. -/
def sysretFlags (r11 : UInt64) : UInt64 := r11 &&& 0x3C7FD7 ||| 2

/-- The rest of the stub. The registers it does not restore are those of the entry. -/
def syscallReturn (value : UInt64) (r : UserRegs) : KernelM σ UserRegs := do
  let s ← get
  let pop (i : UInt64) : KernelM σ UInt64 := onMachine (wordAt (s.syscallFramePtr + 8 * i))
  let r11 ← pop 0
  let r10 ← pop 1
  let r9 ← pop 2
  let r8 ← pop 3
  let rcx ← pop 4
  let rdx ← pop 5
  let rsi ← pop 6
  let rdi ← pop 7
  return { r with rax := value, rcx, rdx, rsi, rdi, r8, r9, r10, r11, rsp := s.userRspSave, rip := rcx, rflags := sysretFlags r11 }

/-- The end of `irq_common`. -/
def irqReturn (frame : UInt64) : MmM UserRegs := do
  let pop (i : UInt64) : MmM UInt64 := wordAt (frame + 8 * i)
  let rax ← pop 0
  let rbx ← pop 1
  let rcx ← pop 2
  let rdx ← pop 3
  let rdi ← pop 4
  let rsi ← pop 5
  let rbp ← pop 6
  let r8 ← pop 7
  let r9 ← pop 8
  let r10 ← pop 9
  let r11 ← pop 10
  let r12 ← pop 11
  let r13 ← pop 12
  let r14 ← pop 13
  let r15 ← pop 14
  let rip ← pop 17
  let rflags ← pop 19
  let rsp ← pop 20
  return { rax, rbx, rcx, rdx, rsi, rdi, rbp, rsp, r8, r9, r10, r11, r12, r13, r14, r15, rip, rflags }

/-- `(uint64_t)` of an `int`. -/
def pidValue (pid : Int32) : UInt64 := pid.toInt64.toUInt64

end SwiftBSD.Sched
