import SwiftBSD.Proof.Sched.ForkFrame
import SwiftBSD.Sched.Stub

namespace SwiftBSD.Proof.Sched
open Lib SwiftBSD.Mm SwiftBSD.Sched SwiftBSD.Proof.Mm

variable {σ : Type} {s s₁ t : Kernel σ} {m : Machine} {x y : Machine} {pagePml4 cr3 kernelRsp : UInt64} {pid : Int32} {k i p idx : Nat} {r rp rc : UserRegs}

/-- The frame of the parent's kernel stack, whose end is `syscall_kernel_rsp`: it is in use, and no table of the parent. -/
structure KernelStack (x : Machine) (cr3 kernelRsp : UInt64) (p : Nat) : Prop where
  top : kernelRsp = addrOf p + kstackSize
  bound : p ≤ maxPages
  taken : x.bitmap p = true
  noTable : ¬ LowTable x.mem cr3 p

def pushed (r : UserRegs) : List UInt64 := [r.rflags, r.r10, r.r9, r.r8, r.rip, r.rdx, r.rsi, r.rdi]

theorem toNat_pushed (bound : p ≤ maxPages) (small : i < 8) : (addrOf p + kstackSize - 64 + 8 * .ofNat i).toNat = 4096 * p + 4032 + 8 * i := by
  unfold maxPages at bound
  have base : (addrOf p).toNat = 4096 * p := UInt64.toNat_ofNat_of_lt' (by change 4096 * p < 2 ^ 64; omega)
  have index : (UInt64.ofNat i).toNat = i := UInt64.toNat_ofNat_of_lt' (by change i < 2 ^ 64; omega)
  have start : addrOf p + kstackSize - 64 = addrOf p + 4032 := by
    unfold kstackSize
    grind
  rw [start, UInt64.toNat_add, UInt64.toNat_add, UInt64.toNat_mul, base, index]
  change ((4096 * p + 4032) % 2 ^ 64 + 8 * i % 2 ^ 64) % 2 ^ 64 = _
  omega

theorem pushed_place (bound : p ≤ maxPages) (small : i < 8) : frameOf (addrOf p + kstackSize - 64 + 8 * .ofNat i) = p ∧
    (addrOf p + kstackSize - 64 + 8 * .ofNat i).toNat % 4096 / 8 = 504 + i := by
  unfold frameOf
  rw [toNat_pushed bound small]
  omega

/-- The state in which `syscall_handler` starts. -/
structure Entered (s s₁ : Kernel σ) (p : Nat) (r : UserRegs) : Prop where
  procs : s₁.procs = s.procs
  current : s₁.currentIdx = s.currentIdx
  next : s₁.nextPid = s.nextPid
  bitmap : s₁.machine.bitmap = s.machine.bitmap
  others : ∀ f, f ≠ p → s₁.machine.mem f = s.machine.mem f
  words : ∀ i < 8, s₁.machine.mem p (504 + i) = (pushed r).getD i 0
  frame : s₁.syscallFramePtr = addrOf p + kstackSize - 64
  rsp : s₁.userRspSave = r.rsp

theorem syscallEntry_run (stack : KernelStack s.machine cr3 kernelRsp p) (run : (syscallEntry kernelRsp r).run s = some ((), s₁)) :
    Entered s s₁ p r := by
  obtain ⟨rfl, bound, -, -⟩ := stack
  unfold syscallEntry at run
  rw [run_bind_some (x := modify _) rfl] at run
  obtain ⟨m, stores, rfl⟩ := onMachine_run run
  have stores' : (forRange (fun i => setWordAt (addrOf p + kstackSize - 64 + 8 * .ofNat i) ((pushed r).getD i 0)) 0 8).run s.machine =
    some ((), m) := stores
  have result := forRange_run (fun j (u : Machine) => j ≤ 8 → u.bitmap = s.machine.bitmap ∧ (∀ f, f ≠ p → u.mem f = s.machine.mem f) ∧
    ∀ i < j, u.mem p (504 + i) = (pushed r).getD i 0) ?_ ?_ stores' (Nat.le_refl 8)
  · exact ⟨rfl, rfl, rfl, result.1, result.2.1, result.2.2, rfl, rfl⟩
  · exact fun _ => ⟨rfl, fun _ _ => rfl, fun i none => by omega⟩
  · intro j u v _ upper before step more
    obtain ⟨bitmap, others, words⟩ := before (by omega)
    obtain ⟨atFrame, atWord⟩ := @pushed_place j p bound (by omega)
    unfold setWordAt at step
    rw [setWord_run step, atFrame, atWord]
    refine ⟨bitmap, fun f other => (setEntry_other other).trans (others f other), fun i small => ?_⟩
    rw [setEntry_same, Function.update_apply]
    by_cases here : i = j
    · rw [if_pos (by omega), here]
    · rw [if_neg (by omega), words i (by omega)]

theorem popped {mem : Mem} (bound : p ≤ maxPages) (words : ∀ i < 8, mem p (504 + i) = (pushed r).getD i 0) (small : i < 8) :
    wordIn mem (addrOf p + kstackSize - 64 + 8 * .ofNat i) = (pushed r).getD i 0 := by
  obtain ⟨frame, index⟩ := pushed_place bound small
  unfold wordIn
  rw [frame, index, words i small]

/-- The registers of the parent behind the system call. -/
def returned (r : UserRegs) (value : UInt64) : UserRegs :=
  { r with rax := value, rcx := r.rip, r11 := r.rflags, rflags := sysretFlags r.rflags }

theorem syscallReturn_run (value : UInt64) (bound : p ≤ maxPages) (words : ∀ i < 8, t.machine.mem p (504 + i) = (pushed r).getD i 0)
    (frame : t.syscallFramePtr = addrOf p + kstackSize - 64) (rsp : t.userRspSave = r.rsp) :
    (syscallReturn value r).run t = some (returned r value, t) := by
  have pop (i : Nat) (small : i < 8) := @popped i p r t.machine.mem bound words small
  rw [← frame] at pop
  have run : (syscallReturn value r).run t = some ({ r with
      rax := value
      rcx := wordIn t.machine.mem (t.syscallFramePtr + 8 * .ofNat 4)
      rdx := wordIn t.machine.mem (t.syscallFramePtr + 8 * .ofNat 5)
      rsi := wordIn t.machine.mem (t.syscallFramePtr + 8 * .ofNat 6)
      rdi := wordIn t.machine.mem (t.syscallFramePtr + 8 * .ofNat 7)
      r8 := wordIn t.machine.mem (t.syscallFramePtr + 8 * .ofNat 3)
      r9 := wordIn t.machine.mem (t.syscallFramePtr + 8 * .ofNat 2)
      r10 := wordIn t.machine.mem (t.syscallFramePtr + 8 * .ofNat 1)
      r11 := wordIn t.machine.mem (t.syscallFramePtr + 8 * .ofNat 0)
      rsp := t.userRspSave
      rip := wordIn t.machine.mem (t.syscallFramePtr + 8 * .ofNat 4)
      rflags := sysretFlags (wordIn t.machine.mem (t.syscallFramePtr + 8 * .ofNat 0)) }, t) := rfl
  rw [run, pop 0 (by decide), pop 1 (by decide), pop 2 (by decide), pop 3 (by decide), pop 4 (by decide), pop 5 (by decide),
    pop 6 (by decide), pop 7 (by decide), rsp]
  rfl

/-- The registers of a child that runs for the first time. -/
def resumed (r : UserRegs) : UserRegs :=
  { returned r 0 with rbx := 0, rbp := 0, r12 := 0, r13 := 0, r14 := 0, r15 := 0, rflags := 0x202 }

theorem irqWords_pushed {mem : Mem} (bound : p ≤ maxPages) (words : ∀ i < 8, mem p (504 + i) = (pushed r).getD i 0) :
    irqWords mem (addrOf p + kstackSize - 64) 0 r.rsp = [0, 0, r.rip, r.rdx, r.rdi, r.rsi, 0, r.r8, r.r9, r.r10, r.rflags, 0, 0, 0, 0, 0, 0,
      r.rip, 0x23, 0x202, r.rsp, 0x1B] := by
  have pop (i : Nat) (small : i < 8) := @popped i p r mem bound words small
  have read : irqWords mem (addrOf p + kstackSize - 64) 0 r.rsp = [0, 0, wordIn mem (addrOf p + kstackSize - 64 + 8 * .ofNat 4),
    wordIn mem (addrOf p + kstackSize - 64 + 8 * .ofNat 5), wordIn mem (addrOf p + kstackSize - 64 + 8 * .ofNat 7),
    wordIn mem (addrOf p + kstackSize - 64 + 8 * .ofNat 6), 0, wordIn mem (addrOf p + kstackSize - 64 + 8 * .ofNat 3),
    wordIn mem (addrOf p + kstackSize - 64 + 8 * .ofNat 2), wordIn mem (addrOf p + kstackSize - 64 + 8 * .ofNat 1),
    wordIn mem (addrOf p + kstackSize - 64 + 8 * .ofNat 0), 0, 0, 0, 0, 0, 0, wordIn mem (addrOf p + kstackSize - 64 + 8 * .ofNat 4), 0x23,
    0x202, r.rsp, 0x1B] := rfl
  rw [read, pop 0 (by decide), pop 1 (by decide), pop 2 (by decide), pop 3 (by decide), pop 4 (by decide), pop 5 (by decide),
    pop 6 (by decide), pop 7 (by decide)]
  rfl

theorem irqReturn_run (words : ∀ i < 22, wordIn m.mem (stackFrame k + 8 * .ofNat i) = ([0, 0, r.rip, r.rdx, r.rdi, r.rsi, 0, r.r8, r.r9, r.r10,
    r.rflags, 0, 0, 0, 0, 0, 0, r.rip, 0x23, 0x202, r.rsp, 0x1B] : List UInt64).getD i 0) :
    (irqReturn (stackFrame k)).run m = some (resumed r, m) := by
  have run : (irqReturn (stackFrame k)).run m = some (
    { rax := wordIn m.mem (stackFrame k + 8 * .ofNat 0)
      rbx := wordIn m.mem (stackFrame k + 8 * .ofNat 1)
      rcx := wordIn m.mem (stackFrame k + 8 * .ofNat 2)
      rdx := wordIn m.mem (stackFrame k + 8 * .ofNat 3)
      rdi := wordIn m.mem (stackFrame k + 8 * .ofNat 4)
      rsi := wordIn m.mem (stackFrame k + 8 * .ofNat 5)
      rbp := wordIn m.mem (stackFrame k + 8 * .ofNat 6)
      r8 := wordIn m.mem (stackFrame k + 8 * .ofNat 7)
      r9 := wordIn m.mem (stackFrame k + 8 * .ofNat 8)
      r10 := wordIn m.mem (stackFrame k + 8 * .ofNat 9)
      r11 := wordIn m.mem (stackFrame k + 8 * .ofNat 10)
      r12 := wordIn m.mem (stackFrame k + 8 * .ofNat 11)
      r13 := wordIn m.mem (stackFrame k + 8 * .ofNat 12)
      r14 := wordIn m.mem (stackFrame k + 8 * .ofNat 13)
      r15 := wordIn m.mem (stackFrame k + 8 * .ofNat 14)
      rip := wordIn m.mem (stackFrame k + 8 * .ofNat 17)
      rflags := wordIn m.mem (stackFrame k + 8 * .ofNat 19)
      rsp := wordIn m.mem (stackFrame k + 8 * .ofNat 20) }, m) := rfl
  rw [run]
  simp only [words _ (show 0 < 22 by decide), words _ (show 1 < 22 by decide), words _ (show 2 < 22 by decide), words _ (show 3 < 22 by decide),
    words _ (show 4 < 22 by decide), words _ (show 5 < 22 by decide), words _ (show 6 < 22 by decide), words _ (show 7 < 22 by decide),
    words _ (show 8 < 22 by decide), words _ (show 9 < 22 by decide), words _ (show 10 < 22 by decide), words _ (show 11 < 22 by decide),
    words _ (show 12 < 22 by decide), words _ (show 13 < 22 by decide), words _ (show 14 < 22 by decide), words _ (show 17 < 22 by decide),
    words _ (show 19 < 22 by decide), words _ (show 20 < 22 by decide)]
  rfl

/-- The child starts with the registers its parent has behind the system call, and 0 in `rax`. -/
def ContextDuplicated (r : UserRegs) (pid : Int32) (s t : Kernel σ) : Prop :=
  ∃ idx rp rc, (s.procs idx).used = false ∧ (t.procs idx).used = true ∧ (t.procs idx).pid = pid ∧
    (syscallReturn (pidValue pid) r).run t = some (rp, t) ∧ (irqReturn (t.procs idx).frame).run t.machine = some (rc, t.machine) ∧
    rp.rax = pidValue pid ∧ rc = { rp with rax := 0 }

/-- Nothing is in the registers that the child does not get. -/
structure Bare (r : UserRegs) : Prop where
  rbx : r.rbx = 0
  rbp : r.rbp = 0
  r12 : r.r12 = 0
  r13 : r.r13 = 0
  r14 : r.r14 = 0
  r15 : r.r15 = 0
  rflags : sysretFlags r.rflags = 0x202

theorem resumed_eq_iff (r : UserRegs) (value : UInt64) : resumed r = { returned r value with rax := 0 } ↔ Bare r := by
  constructor
  · intro same
    have regs := UserRegs.mk.inj same
    obtain ⟨-, rbx, -, -, -, -, rbp, -, -, -, -, -, r12, r13, r14, r15, -, rflags⟩ := regs
    exact ⟨rbx.symm, rbp.symm, r12.symm, r13.symm, r14.symm, r15.symm, rflags.symm⟩
  · rintro ⟨rbx, rbp, r12, r13, r14, r15, rflags⟩
    unfold resumed returned
    rw [rbx, rbp, r12, r13, r14, r15, rflags]

theorem Entered.tables (entered : Entered s s₁ p r) (tables : LowTables s.machine cr3) (noTable : ¬ LowTable s.machine.mem cr3 p) :
    LowTables s₁.machine cr3 :=
  tables.keep (fun f table => entered.others f fun here => noTable (here ▸ table)) entered.bitmap

theorem framedMemory_saved (bound : k ≤ maxPages) (small : i < 22) : wordIn (framedMemory s m k) (stackFrame k + 8 * .ofNat i) =
    (irqWords m.mem s.syscallFramePtr 0 s.userRspSave).getD i 0 := by
  obtain ⟨frame, index⟩ := stackWord_place bound small
  unfold wordIn framedMemory framed
  rw [frame, index]
  by_cases low : i < 17
  · rw [if_pos low, if_pos low, if_pos ⟨rfl, by omega, by omega, by omega⟩, Nat.add_sub_cancel_left]
  · rw [if_neg low, if_neg low, if_neg (by omega), if_pos ⟨rfl, by omega⟩, Nat.sub_add_cancel (by omega)]

/-- The one new process of a fork, with the registers it starts with, and those of its parent. -/
structure Resumes (r : UserRegs) (pid : Int32) (s t : Kernel σ) (idx : Nat) : Prop where
  free : (s.procs idx).used = false
  used : (t.procs idx).used = true
  number : (t.procs idx).pid = pid
  only : ∀ j, (s.procs j).used = false → (t.procs j).used = true → j = idx
  parent : (syscallReturn (pidValue pid) r).run t = some (returned r (pidValue pid), t)
  child : (irqReturn (t.procs idx).frame).run t.machine = some (resumed r, t.machine)

theorem Resumes.duplicated_iff (resumes : Resumes r pid s t idx) : ContextDuplicated r pid s t ↔ Bare r := by
  constructor
  · rintro ⟨j, rp, rc, free, used, -, back, first, -, only⟩
    obtain rfl := resumes.only j free used
    obtain ⟨rfl, -⟩ := Prod.mk.inj (Option.some.inj (resumes.parent.symm.trans back))
    obtain ⟨rfl, -⟩ := Prod.mk.inj (Option.some.inj (resumes.child.symm.trans first))
    exact (resumed_eq_iff r (pidValue pid)).mp only
  · intro plain
    exact ⟨idx, _, _, resumes.free, resumes.used, resumes.number, resumes.parent, resumes.child, rfl, (resumed_eq_iff r _).mpr plain⟩

section Fork
variable (tables : LowTables s.machine (s.parentCr3 pagePml4)) (stack : KernelStack s.machine (s.parentCr3 pagePml4) kernelRsp p)
  (next : 0 < s.nextPid) (entry : (syscallEntry kernelRsp r).run s = some ((), s₁)) (run : (procFork pagePml4).run s₁ = some (pid, t))
  (made : pid ≠ -1)
include tables stack next entry run made

theorem fork_resumes : ∃ idx, Resumes r pid s₁ t idx := by
  have entered := syscallEntry_run stack entry
  have root : s₁.parentCr3 pagePml4 = s.parentCr3 pagePml4 := by
    unfold Kernel.parentCr3 Kernel.current
    rw [entered.procs, entered.current]
  have tables₁ : LowTables s₁.machine (s₁.parentCr3 pagePml4) := root ▸ entered.tables tables stack.noTable
  cases procFork_stage (entered.next ▸ next) run with
  | noTables => exact (made rfl).elim
  | noStack => exact (made rfl).elim
  | noSlot => exact (made rfl).elim
  | @child m m' cloned k idx pid t clone _ taken nonzero bound slot _ machine procs _ saved =>
      have used : s₁.machine.bitmap p = true := entered.bitmap ▸ stack.taken
      have same : ∀ f, LowTable s.machine.mem (s.parentCr3 pagePml4) f → s₁.machine.mem f = s.machine.mem f :=
        fun f table => entered.others f fun here => stack.noTable (here ▸ table)
      have kept : m'.mem p = s₁.machine.mem p := by
        obtain ⟨-, -, mem⟩ := stack_taken bound nonzero taken
        rw [mem]
        refine clone_frames tables₁ clone (fun free => absurd (free.1.symm.trans used) (by decide)) ?_
        rintro ⟨q, path, at_⟩
        rw [root, lowTable_walk same path] at at_
        exact stack.noTable ⟨q, path, at_⟩
      have words : ∀ i < 8, m'.mem p (504 + i) = (pushed r).getD i 0 := fun i small => by rw [kept, entered.words i small]
      have notStack : p ≠ k := by
        rintro rfl
        exact absurd ((stack_free tables₁ clone taken nonzero bound).symm.trans used) (by decide)
      -- The frame of the child may run into the stack of the parent, but not up to the words at its end.
      have left : ∀ i < 8, t.machine.mem p (504 + i) = (pushed r).getD i 0 := by
        intro i small
        rw [machine]
        change framedMemory s₁ m' k p (504 + i) = _
        unfold framedMemory framed
        rw [if_neg fun here => notStack here.1, if_neg (by omega), words i small]
      have child : (irqReturn (stackFrame k)).run t.machine = some (resumed r, t.machine) := by
        refine irqReturn_run fun i small => ?_
        rw [machine]
        change wordIn (framedMemory s₁ m' k) _ = _
        rw [framedMemory_saved bound small, entered.frame, entered.rsp, irqWords_pushed stack.bound words]
      have new : t.procs idx = childOf s₁.current pid cloned (addrOf k) (stackFrame k) := by rw [procs, Function.update_self]
      refine ⟨idx, (freeProc_some slot).2, ?_, ?_, fun j free used' => ?_, ?_, ?_⟩
      · rw [new]
        rfl
      · rw [new]
        rfl
      · by_contra other
        rw [procs, Function.update_of_ne other, free] at used'
        cases used'
      · exact syscallReturn_run (pidValue pid) stack.bound left (saved.1.trans entered.frame) (saved.2.trans entered.rsp)
      · rw [new]
        exact child

/-- A fork duplicates the registers of its caller if and only if those that the child does not get are zero, and the flags are those
that the child starts with. -/
theorem fork_context_iff : ContextDuplicated r pid s₁ t ↔ Bare r := by
  obtain ⟨idx, resumes⟩ := fork_resumes tables stack next entry run made
  exact resumes.duplicated_iff

end Fork

/-- The registers of a program whose C code holds 1 in a register that is kept across calls. -/
def busyRegs : UserRegs where
  rax := 12
  rbx := 1
  rcx := 0
  rdx := 0
  rsi := 0
  rdi := 0
  rbp := 0
  rsp := 0x7F003000
  r8 := 0
  r9 := 0
  r10 := 0
  r11 := 0
  r12 := 0
  r13 := 0
  r14 := 0
  r15 := 0
  rip := 0x401000
  rflags := 0x202

theorem kernelStack_oneProcess : KernelStack oneProcess.machine (oneProcess.parentCr3 0x1000) 0x3000 2 where
  top := by decide
  bound := by decide
  taken := rfl
  noTable := fun table => absurd (lowTable_oneProcess table) (by decide)

theorem busy_forks : ∃ s t, (syscallEntry 0x3000 busyRegs).run oneProcess = some ((), s) ∧ (procFork 0x1000).run s = some (2, t) := by
  have value : ((syscallEntry 0x3000 busyRegs >>= fun _ => procFork 0x1000).run oneProcess).map Prod.fst = some 2 := by decide +kernel
  obtain ⟨⟨pid, t⟩, run, rfl⟩ := Option.map_eq_some_iff.mp value
  obtain ⟨_, s, entry, fork⟩ := run_bind_eq_some.mp run
  exact ⟨s, t, entry, fork⟩

theorem fork_context_iff_busy : ∃ s t, (syscallEntry 0x3000 busyRegs).run oneProcess = some ((), s) ∧ (procFork 0x1000).run s = some (2, t) ∧
    (ContextDuplicated busyRegs 2 s t ↔ Bare busyRegs) := by
  obtain ⟨s, t, entry, fork⟩ := busy_forks
  exact ⟨s, t, entry, fork, fork_context_iff lowTables_oneProcess kernelStack_oneProcess (by decide) entry fork (by decide)⟩

theorem busy_child_differs : ¬ ∀ (s s₁ t : Kernel Fs.Disk) (p : Nat) (r : UserRegs) (pid : Int32), LowTables s.machine (s.parentCr3 0x1000) →
    KernelStack s.machine (s.parentCr3 0x1000) 0x3000 p → 0 < s.nextPid → (syscallEntry 0x3000 r).run s = some ((), s₁) →
    (procFork 0x1000).run s₁ = some (pid, t) → pid ≠ -1 → ContextDuplicated r pid s₁ t := by
  intro all
  obtain ⟨s₁, t, entry, fork⟩ := busy_forks
  obtain ⟨idx, resumes⟩ := fork_resumes lowTables_oneProcess kernelStack_oneProcess (by decide) entry fork (by decide)
  have plain := resumes.duplicated_iff.mp
    (all oneProcess s₁ t 2 busyRegs 2 lowTables_oneProcess kernelStack_oneProcess (by decide) entry fork (by decide))
  exact absurd plain.rbx (by decide)

end SwiftBSD.Proof.Sched
