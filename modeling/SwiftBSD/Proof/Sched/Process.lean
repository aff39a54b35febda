import SwiftBSD.Proof.Mm.Count
import SwiftBSD.Proof.Vfs.Handles
import SwiftBSD.Sched.Process

namespace SwiftBSD.Proof.Sched
open Lib SwiftBSD.Mm SwiftBSD.Sched SwiftBSD.Proof.Mm

variable {σ α : Type} {s t u : Kernel σ} {pagePml4 cr3 a : UInt64} {pid : Int32}

def KernelSpends (s t : Kernel σ) : Prop := Spends s.machine t.machine

instance : IsPreorder (Kernel σ) KernelSpends where
  refl s := .refl s.machine
  trans _ _ _ := .trans

theorem onMachine_run {x : MmM α} {a : α} (run : (onMachine x).run s = some (a, t)) :
    ∃ m, x.run s.machine = some (a, m) ∧ t = { s with machine := m } := by
  obtain ⟨⟨b, m⟩, here, same⟩ := Option.map_eq_some_iff.mp run
  cases same
  exact ⟨m, here, rfl⟩

theorem run_onMachine {x : MmM α} {a : α} {m : Machine} (run : x.run s.machine = some (a, m)) :
    (onMachine x).run s = some (a, { s with machine := m }) := by
  change (x.run s.machine).map _ = _
  rw [run]
  rfl

theorem spends_onMachine {x : MmM α} (spends : Moves Spends x) : Moves KernelSpends (onMachine x : KernelM σ α) := by
  intro s a t run
  obtain ⟨m, here, rfl⟩ := onMachine_run run
  exact spends _ _ _ here

theorem spends_buildIrqFrame (sysframe raxVal kstack userRsp : UInt64) :
    Moves Spends (buildIrqFrame sysframe raxVal kstack userRsp) := by
  have slot (addr : UInt64) : Moves Spends (wordAt addr) := moves_word Spends _ _
  refine .bind (slot _) fun _ => .bind (slot _) fun _ => .bind (slot _) fun _ => .bind (slot _) fun _ => ?_
  refine .bind (slot _) fun _ => .bind (slot _) fun _ => .bind (slot _) fun _ => .bind (slot _) fun _ => ?_
  exact .bind (.forRange (fun i => Respects.write _ _ _) 0 22) fun _ => .pure _

theorem keeps_pidAllocTries (n : Nat) : Keeps (fun s : Kernel σ => (s.machine, s.procs)) (pidAllocTries n) := by
  induction n with
  | zero => exact .pure _
  | succ n ih =>
      intro s pid t run
      unfold pidAllocTries at run
      rw [run_bind_some (x := get) rfl] at run
      obtain ⟨_, u, stored, run⟩ := run_bind_eq_some.mp run
      cases stored
      split at run
      · exact (ih _ _ _ run).trans rfl
      · cases run
        rfl

/-- What is left of a fork when the child has its tables: the kernel stack is taken first. -/
inductive ForkRun (pagePml4 : UInt64) (s : Kernel σ) : Int32 → Kernel σ → Prop
  | noTables {m : Machine} (clone : (vmmClonePml4 (s.parentCr3 pagePml4)).run s.machine = some (0, m)) :
      ForkRun pagePml4 s (-1) { s with machine := m }
  | tables {m m' : Machine} {child kstack : UInt64} {pid : Int32} {t : Kernel σ}
      (clone : (vmmClonePml4 (s.parentCr3 pagePml4)).run s.machine = some (child, m)) (made : child ≠ 0)
      (stack : pageAlloc.run m = some (kstack, m')) (spends : Spends m' t.machine) (failed : kstack = 0 → pid = -1) :
      ForkRun pagePml4 s pid t

theorem procFork_run (run : (procFork pagePml4).run s = some (pid, t)) : ForkRun pagePml4 s pid t := by
  unfold procFork at run
  rw [run_bind_some (x := get) rfl] at run
  obtain ⟨child, s₁, cloned, run⟩ := run_bind_eq_some.mp run
  obtain ⟨m, clone, rfl⟩ := onMachine_run cloned
  split at run
  · next none =>
      subst none
      cases run
      exact .noTables clone
  next made =>
  obtain ⟨kstack, s₂, stacked, run⟩ := run_bind_eq_some.mp run
  obtain ⟨m', stack, rfl⟩ := onMachine_run stacked
  split at run
  · cases run
    exact .tables clone made stack (.refl _) fun _ => rfl
  next taken =>
  obtain ⟨frame, s₃, built, run⟩ := run_bind_eq_some.mp run
  have spends := spends_onMachine (spends_buildIrqFrame _ _ _ _) _ _ _ built
  rw [run_bind_some (x := get) rfl] at run
  refine .tables clone made stack (Spends.trans spends ?_) fun zero => (taken zero).elim
  split at run
  · cases run
    exact .refl _
  obtain ⟨number, s₄, numbered, run⟩ := run_bind_eq_some.mp run
  have kept := congrArg Prod.fst (keeps_pidAllocTries 65536 _ _ _ numbered)
  dsimp only at kept
  rw [← kept]
  split at run
  · cases run
    exact .refl _
  · obtain ⟨_, s₅, stored, run⟩ := run_bind_eq_some.mp run
    cases stored
    cases run
    exact .refl _

theorem ForkRun.spends (fork : ForkRun pagePml4 s pid t) : KernelSpends s t := by
  cases fork with
  | noTables clone => exact moves_vmmClonePml4 Spends _ _ _ _ clone
  | tables clone made stack spends failed =>
      exact ((moves_vmmClonePml4 Spends _ _ _ _ clone).trans (Respects.alloc _ _ _ stack)).trans spends

theorem ForkRun.card (fork : ForkRun pagePml4 s pid t) (success : pid ≠ -1) :
    (freeFrames t.machine).card + 2 ≤ (freeFrames s.machine).card := by
  cases fork with
  | noTables => exact (success rfl).elim
  | tables clone made stack spends failed =>
      have first := takes_vmmClonePml4 _ _ _ _ clone
      have second := takes_pageAlloc _ _ _ stack
      have rest := spends.card_le
      have some_ := Finset.card_pos.mpr (Finset.nonempty_iff_ne_empty.mpr fun empty => made (vmmClonePml4_empty clone empty).1)
      have more := Finset.card_pos.mpr
        (Finset.nonempty_iff_ne_empty.mpr fun empty => success (failed (pageAlloc_empty stack empty).1))
      omega

theorem saveFrame_machine (s : Kernel σ) (frame : UInt64) : (s.saveFrame frame).machine = s.machine := by
  unfold Kernel.saveFrame
  split <;> rfl

theorem spends_switchNext (s : Kernel σ) : KernelSpends s s.switchNext := by
  unfold Kernel.switchNext
  dsimp only
  split
  · exact .refl _
  split
  · exact .refl _
  · exact ⟨rfl, (Spends.refl _).spent⟩

theorem spends_switchProc (frame : UInt64) : Moves KernelSpends (switchProc frame : KernelM σ Unit) := by
  refine .modify fun s => ?_
  have next := spends_switchNext (s.saveFrame frame)
  unfold KernelSpends at next ⊢
  rwa [saveFrame_machine] at next

theorem spends_procWait : Moves KernelSpends (procWait : KernelM σ WaitResult) := by
  intro s result t run
  unfold procWait at run
  rw [run_bind_some (x := get) rfl] at run
  dsimp only at run
  split at run
  · cases run
    exact .refl _
  split at run
  · cases run
    exact .refl _
  · cases run
    exact .refl _

theorem step_spends {e : ProcEvent} (step : ProcStep pagePml4 s e t) : KernelSpends s t := by
  cases step with
  | fork run => exact (procFork_run run).spends
  | exit run =>
      cases run
      exact .refl _
  | wait run => exact spends_procWait _ _ _ run
  | switch run => exact spends_switchProc _ _ _ _ run

def forks : List ProcEvent → Nat
  | [] => 0
  | .fork pid :: rest => (if pid = -1 then 0 else 1) + forks rest
  | _ :: rest => forks rest

theorem forks_append (events rest : List ProcEvent) : forks (events ++ rest) = forks events + forks rest := by
  induction events with
  | nil => simp [forks]
  | cons e events ih => cases e <;> simp [forks, ih, Nat.add_assoc]

theorem run_card {events : List ProcEvent} (run : ProcRun pagePml4 s events t) :
    KernelSpends s t ∧ (freeFrames t.machine).card + 2 * forks events ≤ (freeFrames s.machine).card := by
  induction run with
  | start => exact ⟨.refl _, by simp [forks]⟩
  | @step events e t u _ step ih =>
      obtain ⟨spends, card⟩ := ih
      have next := step_spends step
      refine ⟨spends.trans next, ?_⟩
      rw [forks_append]
      have fewer := next.card_le
      cases step with
      | @fork pid _ fork =>
          by_cases failed : pid = -1
          · simp only [forks, if_pos failed]
            omega
          · have two := (procFork_run fork).card failed
            simp only [forks, if_neg failed]
            omega
      | exit _ | wait _ | switch _ =>
          simp only [forks]
          omega

/-- A run in which a process was forked never ends with as many free pages as it began, whatever has exited and was
waited for in it. -/
theorem forks_lose_pages {events : List ProcEvent} (run : ProcRun pagePml4 s events t) (forked : 0 < forks events) :
    t.machine.freePageCount ≠ s.machine.freePageCount := by
  obtain ⟨spends, card⟩ := run_card run
  exact spends.count_ne (by omega)

def noProcess : Process where
  used := false
  pid := 0
  state := .ready
  exitCode := 0
  parent := 0
  frame := 0
  cr3 := 0
  kstack := 0
  heapStart := 0
  heapBreak := 0
  vmas := ⟨fun _ => ⟨0, 0, 0, 0, 0, 0, false⟩, 0⟩
  fds := SwiftBSD.Proof.Vfs.oneFile.fds

/-- The first process runs alone, on an empty `page_pml4` in frame 1. The frames from 3 on are free. -/
def oneProcess : Kernel Fs.Disk where
  procs := Function.update (fun _ => noProcess) 0 { noProcess with used := true, pid := 1 }
  currentIdx := 0
  nextPid := 2
  nrProcs := 1
  machine := ⟨fun _ _ => 0, fun f => decide (f < 3), 16, 13, 0x1000, smallMachine_bounded⟩
  vfs := SwiftBSD.Proof.Vfs.oneFile
  syscallFramePtr := 0x2000
  userRspSave := 0

/-- The first process forks; the child exits; the first process waits for it. -/
def oneRound : List ProcEvent := [.fork 2, .switch 0, .exit 0, .switch 0, .wait (.reaped 2 0)]

theorem round_runs : ∃ t, ProcRun 0x1000 oneProcess oneRound t ∧ t.machine.freePageCount = 11 := by
  let program : KernelM Fs.Disk (Int32 × WaitResult) := do
    let pid ← procFork 0x1000
    switchProc 0
    procExit 0
    switchProc 0
    let result ← procWait
    return (pid, result)
  have value : (program.run oneProcess).map (fun r => (r.1, r.2.machine.freePageCount)) = some ((2, .reaped 2 0), 11) := by
    decide +kernel
  obtain ⟨⟨r, t⟩, run, same⟩ := Option.map_eq_some_iff.mp value
  obtain ⟨result, count⟩ := Prod.ext_iff.mp same
  refine ⟨t, ?_, count⟩
  obtain ⟨pid, s₁, fork, run⟩ := run_bind_eq_some.mp run
  obtain ⟨_, s₂, toChild, run⟩ := run_bind_eq_some.mp run
  obtain ⟨_, s₃, exit, run⟩ := run_bind_eq_some.mp run
  obtain ⟨_, s₄, toParent, run⟩ := run_bind_eq_some.mp run
  obtain ⟨waited, s₅, wait, run⟩ := run_bind_eq_some.mp run
  cases run
  cases result
  exact ((((ProcRun.start.step (.fork fork)).step (.switch toChild)).step (.exit exit)).step (.switch toParent)).step
    (.wait wait)

theorem forks_lose_pages_round : ∃ t, ProcRun 0x1000 oneProcess oneRound t ∧ 0 < forks oneRound ∧
    t.machine.freePageCount ≠ oneProcess.machine.freePageCount := by
  obtain ⟨t, run, -⟩ := round_runs
  have forked : 0 < forks oneRound := by decide
  exact ⟨t, run, forked, forks_lose_pages run forked⟩

/-- After one child has come and gone two pages are missing, its PML4 and its kernel stack. -/
theorem round_loses_pages : ∃ t, ProcRun 0x1000 oneProcess oneRound t ∧ oneProcess.machine.freePageCount = 13 ∧
    t.machine.freePageCount = 11 ∧ t.machine.freePageCount ≠ oneProcess.machine.freePageCount := by
  obtain ⟨t, run, count⟩ := round_runs
  exact ⟨t, run, rfl, count, by rw [count]; decide⟩

end SwiftBSD.Proof.Sched
