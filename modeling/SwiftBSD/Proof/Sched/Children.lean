import SwiftBSD.Proof.Sched.Table

namespace SwiftBSD.Proof.Sched
open Lib SwiftBSD.Mm SwiftBSD.Sched SwiftBSD.Proof.Mm

variable {σ : Type} {s t : Kernel σ} {pagePml4 : UInt64} {pid : Int32} {result : WaitResult} {i j b : Nat}

/-- The table with what the kernel does not keep: the processes are counted as they are made, and `makers` has the number of the one that
has forked. -/
structure Family (σ : Type) where
  kernel : Kernel σ
  births : Nat → Nat
  makers : Nat → Option Nat
  made : Nat

variable {f g : Family σ}

/-- The current process has forked into the slot `idx`. -/
def Family.fork (f : Family σ) (t : Kernel σ) (idx : Nat) : Family σ where
  kernel := t
  births := Function.update f.births idx f.made
  makers := Function.update f.makers idx (some (f.births f.kernel.currentIdx))
  made := f.made + 1

structure Running (s : Kernel σ) : Prop where
  slot : s.currentIdx < maxProcs
  used : s.current.used = true
  ready : s.current.state = .ready

inductive FamilyStep (pagePml4 : UInt64) (f : Family σ) : Family σ → Prop
  | fork {pid : Int32} {t : Kernel σ} {idx : Nat} (running : Running f.kernel) (run : (procFork pagePml4).run f.kernel = some (pid, t))
      (before : (f.kernel.procs idx).used = false) (after : (t.procs idx).used = true) : FamilyStep pagePml4 f (f.fork t idx)
  | forkFailed {t : Kernel σ} (running : Running f.kernel) (run : (procFork pagePml4).run f.kernel = some (-1, t)) :
      FamilyStep pagePml4 f { f with kernel := t }
  | exit {code : Int32} {t : Kernel σ} (running : Running f.kernel) (run : (procExit code).run f.kernel = some ((), t)) :
      FamilyStep pagePml4 f { f with kernel := t }
  | wait {result : WaitResult} {t : Kernel σ} (running : Running f.kernel) (run : procWait.run f.kernel = some (result, t)) :
      FamilyStep pagePml4 f { f with kernel := t }
  | switch {frame : UInt64} {t : Kernel σ} (run : (switchProc frame).run f.kernel = some ((), t)) :
      FamilyStep pagePml4 f { f with kernel := t }

/-- `kmain` makes the first process, and the processes do the rest. -/
inductive FamilyRun (pagePml4 : UInt64) (s : Kernel σ) : Family σ → Prop
  | first {t u : Kernel σ} {entry rsp cr3 kstack : UInt64} {pid : Int32} (init : schedInit.run s = some ((), t))
      (create : (procCreate entry rsp cr3 kstack).run t = some (pid, u)) : FamilyRun pagePml4 s ⟨u, fun _ => 0, fun _ => none, 1⟩
  | step {f g : Family σ} (before : FamilyRun pagePml4 s f) (step : FamilyStep pagePml4 f g) : FamilyRun pagePml4 s g

section Family
variable (f : Family σ)

def Family.Used (i : Nat) : Prop := i < maxProcs ∧ (f.kernel.procs i).used = true

/-- The current process has made the one in slot `j`, and has not taken it out. -/
def Family.Child (j : Nat) : Prop := f.Used j ∧ j ≠ f.kernel.currentIdx ∧ f.makers j = some (f.births f.kernel.currentIdx)

/-- The process that has made the one in slot `j` has been taken out. -/
def Family.Orphan (j : Nat) : Prop := f.Used j ∧ ∃ b, f.makers j = some b ∧ ∀ i, f.Used i → f.births i ≠ b

/-- The current process is the one that `kmain` has made. -/
def Family.First : Prop := f.makers f.kernel.currentIdx = none

structure WaitHonest (result : WaitResult) : Prop where
  childless : result = .noChild ↔ ¬∃ j, f.Child j
  yields : result = .yields → ∃ j, f.Child j

/-- When it is kept: the caller has a child, or it is not the first process, and no orphan goes by its number. -/
def WaitMet : Prop := (∃ j, f.Child j) ∨ ¬f.First ∧ ∀ j, f.Orphan j → (f.kernel.procs j).parent ≠ f.kernel.current.pid

/-- The `parent` of a process is the number of the one that has made it, as long as that is in the table. -/
structure FamilyInv : Prop where
  table : TableInv f.kernel
  births : ∀ i, f.Used i → f.births i < f.made
  apart : ∀ i j, f.Used i → f.Used j → f.births i = f.births j → i = j
  older : ∀ i b, f.Used i → f.makers i = some b → b < f.births i
  first : ∀ i, f.Used i → f.makers i = none → (f.kernel.procs i).parent = 1 ∧ (f.kernel.procs i).pid = 1
  named : ∀ i b j, f.Used i → f.makers i = some b → f.Used j → f.births j = b → (f.kernel.procs i).parent = (f.kernel.procs j).pid

end Family

/-- Processes may have left the table, and the others are who they were. -/
def Fewer (s t : Kernel σ) : Prop := ∀ i, (t.procs i).used = true →
  (s.procs i).used = true ∧ (t.procs i).pid = (s.procs i).pid ∧ (t.procs i).parent = (s.procs i).parent

theorem fewer_same (same : t.procs = s.procs) : Fewer s t := fun i used => by
  rw [same] at used ⊢
  exact ⟨used, rfl, rfl⟩

theorem fewer_setProc (s : Kernel σ) (idx : Nat) {p : Process} (used : p.used = true → (s.procs idx).used = true)
    (named : p.pid = (s.procs idx).pid) (parent : p.parent = (s.procs idx).parent) : Fewer s (s.setProc idx p) := fun i live => by
  have slot : (s.setProc idx p).procs i = if i = idx then p else s.procs i := Function.update_apply _ _ _ _
  rw [slot] at live ⊢
  split at live
  · next here =>
      subst here
      rw [if_pos rfl]
      exact ⟨used live, named, parent⟩
  · next other =>
      rw [if_neg other]
      exact ⟨live, rfl, rfl⟩

theorem procExit_fewer {code : Int32} (run : (procExit code).run s = some ((), t)) : Fewer s t := by
  cases run
  exact fewer_setProc s _ id rfl rfl

theorem switchProc_fewer {frame : UInt64} (run : (switchProc frame).run s = some ((), t)) : Fewer s t := by
  cases run
  intro i used
  rw [(switchNext_procs _).1] at used ⊢
  revert used
  unfold Kernel.saveFrame
  split
  · have kept := fewer_setProc s s.currentIdx (id : ({ s.current with frame } : Process).used = true → s.current.used = true) rfl rfl
    exact kept i
  · exact fun used => ⟨used, rfl, rfl⟩

theorem procWait_fewer (run : procWait.run s = some (result, t)) : Fewer s t := by
  unfold procWait at run
  rw [run_bind_some (x := get) rfl] at run
  dsimp only at run
  split at run
  · cases run
    exact fewer_setProc s _ (fun used => by cases used) rfl rfl
  · split at run
    · obtain ⟨-, rfl⟩ := pure_run run
      exact fewer_same rfl
    · obtain ⟨-, rfl⟩ := pure_run run
      exact fewer_same rfl

/-- A process that `proc_wait` takes for a child. -/
def NamesCaller (s : Kernel σ) (i : Nat) : Prop := i < maxProcs ∧ (s.procs i).used = true ∧ (s.procs i).parent = s.current.pid

theorem procWait_result (run : procWait.run s = some (result, t)) :
    (result = .noChild ↔ ¬∃ i, NamesCaller s i) ∧ (result = .yields → ∃ i, NamesCaller s i) := by
  unfold procWait at run
  rw [run_bind_some (x := get) rfl] at run
  dsimp only at run
  split at run
  · next i found =>
      obtain ⟨-, small, here, -⟩ := firstFrom_some found
      obtain ⟨used, -, parent⟩ := isZombieOf_iff.mp here
      have child : ∃ i, NamesCaller s i := ⟨i, by omega, used, parent⟩
      cases run
      exact ⟨iff_of_false (fun none => by cases none) (not_not.mpr child), fun _ => child⟩
  · split at run
    · next i found =>
        obtain ⟨-, small, here, -⟩ := firstFrom_some found
        rw [Bool.and_eq_true, beq_iff_eq] at here
        have child : ∃ i, NamesCaller s i := ⟨i, by omega, here⟩
        obtain ⟨rfl, -⟩ := pure_run run
        exact ⟨iff_of_false (fun none => by cases none) (not_not.mpr child), fun _ => child⟩
    · next nowhere =>
        obtain ⟨rfl, -⟩ := pure_run run
        refine ⟨iff_of_true rfl ?_, fun yields => by cases yields⟩
        rintro ⟨i, small, used, parent⟩
        have absent := firstFrom_none.mp nowhere i (Nat.zero_le _) (by omega)
        rw [used, parent, beq_self_eq_true] at absent
        cases absent

theorem procWait_yields (run : procWait.run s = some (.yields, t)) : t = s := by
  unfold procWait at run
  rw [run_bind_some (x := get) rfl] at run
  dsimp only at run
  split at run
  · obtain ⟨_, u, -, last⟩ := run_bind_eq_some.mp run
    cases last
  · split at run
    · cases run
      rfl
    · cases run

theorem Family.Used.fewer (used : Family.Used { f with kernel := t } i) (fewer : Fewer f.kernel t) : f.Used i :=
  ⟨used.1, (fewer i used.2).1⟩

theorem FamilyInv.fewer (inv : FamilyInv f) (fewer : Fewer f.kernel t) (table : TableInv t) : FamilyInv { f with kernel := t } where
  table := table
  births i used := inv.births i (used.fewer fewer)
  apart i j used used' same := inv.apart i j (used.fewer fewer) (used'.fewer fewer) same
  older i b used made := inv.older i b (used.fewer fewer) made
  first i used made := by
    obtain ⟨-, pid, parent⟩ := fewer i used.2
    have first := inv.first i (used.fewer fewer) made
    dsimp only
    rw [pid, parent]
    exact first
  named i b j used made used' born := by
    obtain ⟨-, -, parent⟩ := fewer i used.2
    obtain ⟨-, pid, -⟩ := fewer j used'.2
    have named := inv.named i b j (used.fewer fewer) made (used'.fewer fewer) born
    dsimp only
    rw [pid, parent]
    exact named

theorem Born.slot_cases {idx : Nat} {parent : Int32} (born : Born f.kernel idx parent pid t) (used : (f.fork t idx).Used i) :
    i = idx ∨ i ≠ idx ∧ f.Used i ∧ t.procs i = f.kernel.procs i ∧ (f.fork t idx).births i = f.births i ∧ (f.fork t idx).makers i = f.makers i := by
  by_cases here : i = idx
  · exact .inl here
  · obtain ⟨small, live⟩ := used
    change (t.procs i).used = true at live
    rw [born.others i here] at live
    exact .inr ⟨here, ⟨small, live⟩, born.others i here, Function.update_of_ne here _ _, Function.update_of_ne here _ _⟩

theorem FamilyInv.fork {idx : Nat} (inv : FamilyInv f) (running : Running f.kernel) (born : Born f.kernel idx f.kernel.current.pid pid t) :
    FamilyInv (f.fork t idx) := by
  have birth : (f.fork t idx).births idx = f.made := Function.update_self _ _ _
  have maker : (f.fork t idx).makers idx = some (f.births f.kernel.currentIdx) := Function.update_self _ _ _
  have caller : f.Used f.kernel.currentIdx := ⟨running.slot, running.used⟩
  have apart : f.kernel.currentIdx ≠ idx := fun same => by
    have free := born.free
    rw [← same, caller.2] at free
    cases free
  refine ⟨inv.table.born born, fun i used => ?_, fun i j used used' same => ?_, fun i b used made => ?_, fun i used made => ?_,
    fun i b j used made used' same => ?_⟩
  · change _ < f.made + 1
    rcases born.slot_cases used with rfl | ⟨-, old, -, births, -⟩
    · omega
    · have := inv.births i old
      omega
  · rcases born.slot_cases used with rfl | ⟨-, old, -, births, -⟩ <;> rcases born.slot_cases used' with rfl | ⟨-, old', -, births', -⟩
    · rfl
    · have := inv.births j old'
      omega
    · have := inv.births i old
      omega
    · exact inv.apart i j old old' (by omega)
  · rcases born.slot_cases used with rfl | ⟨-, old, -, births, makers⟩
    · rw [maker] at made
      cases made
      rw [birth]
      exact inv.births _ caller
    · rw [makers] at made
      rw [births]
      exact inv.older i b old made
  · rcases born.slot_cases used with rfl | ⟨-, old, same, -, makers⟩
    · rw [maker] at made
      cases made
    · rw [makers] at made
      change (t.procs i).parent = 1 ∧ (t.procs i).pid = 1
      rw [same]
      exact inv.first i old made
  · change (t.procs i).parent = (t.procs j).pid
    rcases born.slot_cases used with rfl | ⟨-, old, here, -, makers⟩
    · rw [maker] at made
      cases made
      rcases born.slot_cases used' with rfl | ⟨-, old', there, births, -⟩
      · -- nobody is older than the caller and made last
        have := inv.births _ caller
        omega
      · have here := inv.apart j _ old' caller (by rw [← births, same])
        rw [born.parent, there, here]
        rfl
    · rw [makers] at made
      rcases born.slot_cases used' with rfl | ⟨-, old', there, births, -⟩
      · have := inv.older i b old made
        have := inv.births i old
        omega
      · rw [here, there]
        exact inv.named i b j old made old' (by rw [← births, same])

theorem FamilyInv.start {entry rsp cr3 kstack : UInt64} {u : Kernel σ} (init : schedInit.run s = some ((), t))
    (create : (procCreate entry rsp cr3 kstack).run t = some (pid, u)) : FamilyInv ⟨u, fun _ => 0, fun _ => none, 1⟩ := by
  have created : TableRun 0 s u := .create (.start init) create
  have table := tableRun_inv created
  have free (i : Nat) (small : i < maxProcs) : (t.procs i).used = false := by
    cases init
    change (if i < maxProcs then _ else _ : Process).used = false
    rw [if_pos small]
  have next : t.nextPid = 1 := by
    cases init
    rfl
  rcases procCreate_table (by rw [next]; decide) create with ⟨-, same⟩ | ⟨idx, born⟩
  · have none (i : Nat) (used : Family.Used ⟨u, fun _ => 0, fun _ => none, 1⟩ i) : False := by
      obtain ⟨small, live⟩ := used
      change (u.procs i).used = true at live
      rw [same.procs, free i small] at live
      cases live
    exact ⟨table, fun i used => (none i used).elim, fun i j used => (none i used).elim, fun i b used => (none i used).elim,
      fun i used => (none i used).elim, fun i b j used => (none i used).elim⟩
  · have only (i : Nat) (used : Family.Used ⟨u, fun _ => 0, fun _ => none, 1⟩ i) : i = idx := by
      obtain ⟨small, live⟩ := used
      by_contra other
      change (u.procs i).used = true at live
      rw [born.others i other, free i small] at live
      cases live
    have one : pid = 1 := by
      refine (born.first ?_).1.trans next
      rw [Bool.eq_false_iff]
      intro taken
      obtain ⟨i, small, used, -⟩ := pidTaken_iff.mp taken
      rw [free i small] at used
      cases used
    refine ⟨table, fun i used => Nat.one_pos, fun i j used used' _ => (only i used).trans (only j used').symm, fun i b used made => ?_,
      fun i used _ => ?_, fun i b j used made => ?_⟩
    · cases made
    · rw [only i used]
      exact ⟨born.parent, born.named.trans one⟩
    · cases made

theorem familyStep_inv (inv : FamilyInv f) (step : FamilyStep pagePml4 f g) : FamilyInv g := by
  cases step with
  | @fork pid t idx running run before after =>
      rcases procFork_table inv.table.next run with ⟨-, same⟩ | ⟨slot, born⟩
      · rw [same.procs, before] at after
        cases after
      · have here : idx = slot := by
          by_contra other
          rw [born.others idx other, before] at after
          cases after
        subst here
        exact inv.fork running born
  | forkFailed running run =>
      rcases procFork_table inv.table.next run with ⟨-, same⟩ | ⟨slot, born⟩
      · exact inv.fewer (fewer_same same.procs) (inv.table.same same)
      · exact absurd born.positive (by decide)
  | exit running run =>
      have left : ProcStep pagePml4 f.kernel _ _ := .exit run
      exact inv.fewer (procExit_fewer run) (procStep_inv inv.table left)
  | wait running run => exact inv.fewer (procWait_fewer run) (procWait_inv inv.table run)
  | switch run =>
      have left : ProcStep pagePml4 f.kernel _ _ := .switch run
      exact inv.fewer (switchProc_fewer run) (procStep_inv inv.table left)

theorem familyRun_inv (run : FamilyRun pagePml4 s f) : FamilyInv f := by
  induction run with
  | first init create => exact .start init create
  | step before step ih => exact familyStep_inv ih step

theorem FamilyInv.child_names (inv : FamilyInv f) (running : Running f.kernel) (child : f.Child j) : NamesCaller f.kernel j := by
  obtain ⟨used, -, made⟩ := child
  exact ⟨used.1, used.2, inv.named j _ _ used made ⟨running.slot, running.used⟩ rfl⟩

theorem FamilyInv.names_cases (inv : FamilyInv f) (running : Running f.kernel) (names : NamesCaller f.kernel i) :
    f.Child i ∨ f.First ∨ f.Orphan i := by
  obtain ⟨small, live, parent⟩ := names
  have used : f.Used i := ⟨small, live⟩
  have caller : f.Used f.kernel.currentIdx := ⟨running.slot, running.used⟩
  cases made : f.makers i with
  | none =>
      obtain ⟨one, first⟩ := inv.first i used made
      have here : i = f.kernel.currentIdx :=
        inv.table.distinct i small _ running.slot live running.used (by rw [first, ← one, parent]; rfl)
      rw [here] at made
      exact .inr (.inl made)
  | some b =>
      by_cases gone : ∃ k, f.Used k ∧ f.births k = b
      · obtain ⟨k, there, born⟩ := gone
        have named := inv.named i b k used made there born
        have here : k = f.kernel.currentIdx :=
          inv.table.distinct k there.1 _ running.slot there.2 running.used (by rw [← named, parent]; rfl)
        subst here
        refine .inl ⟨used, ?_, by rw [made, born]⟩
        rintro rfl
        have := inv.older _ b used made
        omega
      · exact .inr (.inr ⟨used, b, made, fun k there born => gone ⟨k, there, born⟩⟩)

theorem FamilyInv.nobody_iff (inv : FamilyInv f) (running : Running f.kernel) (childless : ¬∃ j, f.Child j) :
    (¬∃ i, NamesCaller f.kernel i) ↔ ¬f.First ∧ ∀ j, f.Orphan j → (f.kernel.procs j).parent ≠ f.kernel.current.pid := by
  constructor
  · intro nobody
    refine ⟨fun first => ?_, fun j orphan parent => nobody ⟨j, orphan.1.1, orphan.1.2, parent⟩⟩
    obtain ⟨parent, pid⟩ := inv.first _ ⟨running.slot, running.used⟩ first
    exact nobody ⟨_, running.slot, running.used, by rw [parent]; exact pid.symm⟩
  · rintro ⟨later, strangers⟩ ⟨i, names⟩
    rcases inv.names_cases running names with child | first | orphan
    · exact childless ⟨i, child⟩
    · exact later first
    · exact strangers i orphan names.2.2

/-- `proc_wait` gives -1 just when there is no child, and waits only for one, if and only if the caller has a child, or it is not the first
process and no orphan goes by its number. -/
theorem wait_honest_iff (run : FamilyRun pagePml4 s f) (running : Running f.kernel) (call : procWait.run f.kernel = some (result, t)) :
    WaitHonest f result ↔ WaitMet f := by
  have inv := familyRun_inv run
  obtain ⟨none, yields⟩ := procWait_result call
  unfold WaitMet
  by_cases child : ∃ j, f.Child j
  · obtain ⟨j, mine⟩ := child
    refine iff_of_true ⟨?_, fun _ => ⟨j, mine⟩⟩ (.inl ⟨j, mine⟩)
    exact none.trans (not_congr (iff_of_true ⟨j, inv.child_names running mine⟩ ⟨j, mine⟩))
  · rw [or_iff_right child, ← inv.nobody_iff running child]
    refine ⟨fun honest => none.mp (honest.childless.mpr child), fun nobody => ⟨iff_of_true (none.mpr nobody) child, fun waits => ?_⟩⟩
    exact (nobody (yields waits)).elim

def startFirst : KernelM Fs.Disk Int32 := do
  schedInit
  procCreate 0x8000000 0x7F003000 0x1000 0x2000

theorem running_zero (current : s.currentIdx = 0) (used : (s.procs 0).used = true) (ready : decide ((s.procs 0).state = .ready) = true) :
    Running s := by
  refine ⟨?_, ?_, ?_⟩
  · rw [current]
    decide
  · unfold Kernel.current
    rw [current, used]
  · unfold Kernel.current
    rw [current]
    exact of_decide_eq_true ready

def forkAndWait : KernelM Fs.Disk (List Bool × List Nat × WaitResult) := do
  let _ ← startFirst
  let s ← get
  let _ ← procFork 0x1000
  let t ← get
  let result ← procWait
  return ([(s.procs 1).used, (t.procs 1).used, (s.procs 0).used, decide ((s.procs 0).state = .ready), (t.procs 0).used,
    decide ((t.procs 0).state = .ready)], [s.currentIdx, t.currentIdx], result)

theorem wait_honest_iff_forked : ∃ (f : Family Fs.Disk) (t : Kernel Fs.Disk), FamilyRun 0x1000 oneProcess f ∧
    procWait.run f.kernel = some (.yields, t) ∧ WaitHonest f .yields := by
  have value : (forkAndWait.run oneProcess).map (fun r => r.1) = some ([false, true, true, true, true, true], [0, 0], .yields) := by decide +kernel
  obtain ⟨⟨r, t⟩, run, same⟩ := Option.map_eq_some_iff.mp value
  dsimp only at same
  subst same
  unfold forkAndWait at run
  obtain ⟨pid, s₁, first, run⟩ := run_bind_eq_some.mp run
  obtain ⟨_, s₀, init, create⟩ := run_bind_eq_some.mp first
  rw [run_bind_some (x := get) rfl] at run
  obtain ⟨child, s₂, fork, run⟩ := run_bind_eq_some.mp run
  rw [run_bind_some (x := get) rfl] at run
  obtain ⟨result, s₃, wait, run⟩ := run_bind_eq_some.mp run
  obtain ⟨values, -⟩ := pure_run run
  simp only [Prod.mk.injEq, List.cons.injEq, and_true] at values
  obtain ⟨⟨before, after, used, ready, used', ready'⟩, ⟨current, current'⟩, rfl⟩ := values
  have start : FamilyRun 0x1000 oneProcess ⟨s₁, fun _ => 0, fun _ => none, 1⟩ := .first init create
  have forked : FamilyRun 0x1000 oneProcess (Family.fork ⟨s₁, fun _ => 0, fun _ => none, 1⟩ s₂ 1) :=
    start.step (.fork (running_zero current used ready) fork before after)
  refine ⟨_, s₃, forked, wait, (wait_honest_iff forked (running_zero current' used' ready') wait).mpr (.inl ⟨1, ⟨by decide, after⟩, ?_, ?_⟩)⟩
  · change 1 ≠ s₂.currentIdx
    rw [current']
    decide
  · have maker : (Family.fork ⟨s₁, fun _ => 0, fun _ => none, 1⟩ s₂ 1).makers 1 = some 0 := rfl
    have birth : (Family.fork ⟨s₁, fun _ => 0, fun _ => none, 1⟩ s₂ 1).births 0 = 0 := rfl
    change _ = some (Family.births _ s₂.currentIdx)
    rw [maker, current', birth]

/-- The first process waits without a child: it goes by the number of its own parent. -/
theorem first_waits_for_itself : ∃ (f : Family Fs.Disk) (t : Kernel Fs.Disk), FamilyRun 0x1000 oneProcess f ∧ Running f.kernel ∧
    procWait.run f.kernel = some (.yields, t) ∧ t = f.kernel ∧ ¬WaitHonest f .yields := by
  have value : (startFirst.run oneProcess).map (fun r => (r.2.currentIdx, (r.2.procs 0).used, decide ((r.2.procs 0).state = .ready),
    (procWait.run r.2).map fun w => w.1)) = some (0, true, true, some .yields) := by decide +kernel
  obtain ⟨⟨pid, s⟩, run, values⟩ := Option.map_eq_some_iff.mp value
  simp only [Prod.mk.injEq] at values
  obtain ⟨current, used, ready, waits⟩ := values
  obtain ⟨⟨result, t⟩, wait, here⟩ := Option.map_eq_some_iff.mp waits
  dsimp only at here
  subst here
  obtain ⟨_, s₀, init, create⟩ := run_bind_eq_some.mp run
  have start : FamilyRun 0x1000 oneProcess ⟨s, fun _ => 0, fun _ => none, 1⟩ := .first init create
  refine ⟨_, t, start, running_zero current used ready, wait, procWait_yields wait, fun honest => ?_⟩
  obtain ⟨j, -, -, made⟩ := honest.yields rfl
  cases made

end SwiftBSD.Proof.Sched
