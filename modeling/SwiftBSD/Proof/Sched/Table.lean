import SwiftBSD.Proof.Sched.Process
import SwiftBSD.Sched.Table
import Mathlib.Data.Fintype.Card

namespace SwiftBSD.Proof.Sched
open Lib SwiftBSD.Mm SwiftBSD.Sched SwiftBSD.Proof.Mm

variable {σ α : Type} {s t u : Kernel σ} {pagePml4 : UInt64} {pid : Int32}

/-- The number that `pid_alloc` tries after `pid`. -/
def pidAfter (pid : Int32) : Int32 := if pid + 1 ≤ 0 then 1 else pid + 1

theorem toInt_pidAfter (positive : 0 < pid) : (pidAfter pid).toInt = if pid.toInt = 2 ^ 31 - 1 then 1 else pid.toInt + 1 := by
  have lower : 0 < pid.toInt := Int32.lt_iff_toInt_lt.mp positive
  have upper := pid.toInt_lt
  have sum : (pid + 1).toInt = (pid.toInt + 1).bmod (2 ^ 32) := Int32.toInt_add _ _
  unfold pidAfter
  rw [apply_ite Int32.toInt]
  by_cases last : pid.toInt = 2 ^ 31 - 1
  · have wraps : pid + 1 ≤ 0 := by
      rw [Int32.le_iff_toInt_le, sum, last]
      decide
    rw [if_pos wraps, if_pos last]
    rfl
  · have next : (pid + 1).toInt = pid.toInt + 1 := by
      rw [sum, Int.bmod_eq_of_le] <;> omega
    have more : ¬pid + 1 ≤ 0 := by
      rw [Int32.le_iff_toInt_le, next]
      change ¬pid.toInt + 1 ≤ 0
      omega
    rw [if_neg more, if_neg last, next]

theorem pidAfter_pos (positive : 0 < pid) : 0 < pidAfter pid := by
  have lower : 0 < pid.toInt := Int32.lt_iff_toInt_lt.mp positive
  rw [Int32.lt_iff_toInt_lt, toInt_pidAfter positive]
  change 0 < _
  split <;> omega

def pidTry (pid : Int32) : Nat → Int32
  | 0 => pid
  | n+1 => pidTry (pidAfter pid) n

theorem toInt_pidTry (positive : 0 < pid) (n : Nat) : (pidTry pid n).toInt = (pid.toInt - 1 + n) % (2 ^ 31 - 1) + 1 := by
  induction n generalizing pid with
  | zero =>
      have lower : 0 < pid.toInt := Int32.lt_iff_toInt_lt.mp positive
      have upper := pid.toInt_lt
      unfold pidTry
      omega
  | succ n ih =>
      have lower : 0 < pid.toInt := Int32.lt_iff_toInt_lt.mp positive
      unfold pidTry
      rw [ih (pidAfter_pos positive), toInt_pidAfter positive]
      split <;> omega

theorem pidTaken_iff {procs : Nat → Process} : pidTaken procs pid = true ↔ ∃ i < maxProcs, (procs i).used = true ∧ (procs i).pid = pid := by
  unfold pidTaken
  constructor
  · intro found
    obtain ⟨i, search⟩ := Option.isSome_iff_exists.mp found
    obtain ⟨-, small, here, -⟩ := firstFrom_some search
    rw [Bool.and_eq_true, beq_iff_eq] at here
    exact ⟨i, by omega, here⟩
  · rintro ⟨i, small, used, same⟩
    by_contra nowhere
    rw [Bool.not_eq_true, Option.isSome_eq_false_iff, Option.isNone_iff_eq_none, firstFrom_none] at nowhere
    have absent := nowhere i (Nat.zero_le _) (by omega)
    rw [used, same, beq_self_eq_true] at absent
    cases absent

structure PidRun (s : Kernel σ) (pid : Int32) (t : Kernel σ) : Prop where
  state : t = { s with nextPid := t.nextPid }
  positive : 0 < pid
  fresh : ∀ i < maxProcs, (s.procs i).used = true → (s.procs i).pid ≠ pid
  next : 0 < t.nextPid
  first : pidTaken s.procs s.nextPid = false → pid = s.nextPid ∧ t.nextPid = pidAfter s.nextPid

theorem pidAllocTries_run {n : Nat} (positive : 0 < s.nextPid) : ∃ pid t, (pidAllocTries n).run s = some (pid, t) ∧
    (PidRun s pid t ∨ ∀ k < n, pidTaken s.procs (pidTry s.nextPid k) = true) := by
  induction n generalizing s with
  | zero => exact ⟨-1, s, rfl, .inr fun k none => by omega⟩
  | succ n ih =>
      let s₁ : Kernel σ := { s with nextPid := pidAfter s.nextPid }
      have next : 0 < s₁.nextPid := pidAfter_pos positive
      unfold pidAllocTries
      rw [run_bind_some (x := get) rfl]
      by_cases taken : pidTaken s.procs s.nextPid = true
      · obtain ⟨pid, t, run, result⟩ := ih next
        refine ⟨pid, t, ?_, ?_⟩
        · dsimp only
          rw [if_pos taken]
          exact run
        · refine result.imp (fun done => ?_) fun all k small => ?_
          · refine ⟨done.state, done.positive, done.fresh, done.next, fun free => ?_⟩
            rw [taken] at free
            cases free
          · cases k with
            | zero => exact taken
            | succ k => exact all k (by omega)
      · refine ⟨s.nextPid, s₁, ?_, .inl ⟨rfl, positive, fun i small used same => ?_, next, fun _ => ⟨rfl, rfl⟩⟩⟩
        · dsimp only
          rw [if_neg taken]
          rfl
        · exact taken (pidTaken_iff.mpr ⟨i, small, used, same⟩)

theorem pidTaken_some (positive : 0 < pid) {procs : Nat → Process} {n : Nat} (more : maxProcs < n) (few : n ≤ 65536)
    (all : ∀ k < n, pidTaken procs (pidTry pid k) = true) : False := by
  have slots (k : Fin n) : ∃ i : Fin maxProcs, (procs i).pid = pidTry pid k := by
    obtain ⟨i, small, -, same⟩ := pidTaken_iff.mp (all k k.isLt)
    exact ⟨⟨i, small⟩, same⟩
  choose slot same using slots
  obtain ⟨k, l, other, here⟩ := Fintype.exists_ne_map_eq_of_card_lt slot (by simpa using more)
  have equal : pidTry pid k = pidTry pid l := by rw [← same k, ← same l, here]
  have values := congrArg Int32.toInt equal
  rw [toInt_pidTry positive, toInt_pidTry positive] at values
  have first := k.isLt
  have second := l.isLt
  exact other (Fin.ext (by omega))

theorem pidAlloc_run (positive : 0 < s.nextPid) : ∃ pid t, pidAlloc.run s = some (pid, t) ∧ PidRun s pid t := by
  obtain ⟨pid, t, run, result⟩ := pidAllocTries_run (n := 65536) positive
  exact ⟨pid, t, run, result.resolve_right fun all => pidTaken_some positive (by decide) (by decide) all⟩

structure SameTable (s t : Kernel σ) : Prop where
  procs : t.procs = s.procs
  current : t.currentIdx = s.currentIdx
  nextPid : t.nextPid = s.nextPid
  count : t.nrProcs = s.nrProcs

theorem SameTable.refl (s : Kernel σ) : SameTable s s := ⟨rfl, rfl, rfl, rfl⟩

theorem SameTable.trans (first : SameTable s t) (second : SameTable t u) : SameTable s u :=
  ⟨second.procs.trans first.procs, second.current.trans first.current, second.nextPid.trans first.nextPid,
    second.count.trans first.count⟩

theorem sameTable_onMachine {x : MmM α} {a : α} (run : (onMachine x).run s = some (a, t)) : SameTable s t := by
  obtain ⟨m, -, rfl⟩ := onMachine_run run
  exact ⟨rfl, rfl, rfl, rfl⟩

/-- A slot that was free has become the process `pid`. -/
structure Born (s : Kernel σ) (idx : Nat) (parent pid : Int32) (t : Kernel σ) : Prop where
  slot : idx < maxProcs
  free : (s.procs idx).used = false
  others : ∀ i, i ≠ idx → t.procs i = s.procs i
  used : (t.procs idx).used = true
  named : (t.procs idx).pid = pid
  state : (t.procs idx).state = .ready
  parent : (t.procs idx).parent = parent
  count : t.nrProcs = s.nrProcs + 1
  current : t.currentIdx = s.currentIdx
  positive : 0 < pid
  fresh : ∀ i < maxProcs, (s.procs i).used = true → (s.procs i).pid ≠ pid
  next : 0 < t.nextPid
  first : pidTaken s.procs s.nextPid = false → pid = s.nextPid ∧ t.nextPid = pidAfter s.nextPid

theorem freeProc_some {procs : Nat → Process} {idx : Nat} (found : freeProc procs = some idx) :
    idx < maxProcs ∧ (procs idx).used = false := by
  obtain ⟨-, small, free, -⟩ := firstFrom_some found
  exact ⟨by omega, by simpa using free⟩

theorem born_of {s₁ s₂ : Kernel σ} {idx : Nat} {p : Process} (same : SameTable s s₁) (found : freeProc s₁.procs = some idx)
    (number : PidRun s₁ pid s₂) (used : p.used = true) (named : p.pid = pid) (ready : p.state = .ready)
    (hprocs : t.procs = Function.update s₂.procs idx p) (hcount : t.nrProcs = s₂.nrProcs + 1) (hcurrent : t.currentIdx = s₂.currentIdx)
    (hnext : t.nextPid = s₂.nextPid) : Born s idx p.parent pid t := by
  obtain ⟨small, free⟩ := freeProc_some found
  have procs : s₂.procs = s.procs := by rw [number.state, ← same.procs]
  have here : t.procs idx = p := by rw [hprocs, Function.update_self]
  exact {
    slot := small
    free := by rw [← same.procs, free]
    others := fun i other => by rw [hprocs, Function.update_of_ne other, procs]
    used := by rw [here, used]
    named := by rw [here, named]
    state := by rw [here, ready]
    parent := by rw [here]
    count := by rw [hcount, number.state, ← same.count]
    current := by rw [hcurrent, number.state, ← same.current]
    positive := number.positive
    fresh := fun i small used => by
      rw [← same.procs] at used ⊢
      exact number.fresh i small used
    next := by rw [hnext]; exact number.next
    first := fun untaken => by
      have := number.first (by rw [same.procs, same.nextPid]; exact untaken)
      rw [same.nextPid] at this
      rw [hnext]
      exact this }

theorem procFork_table (positive : 0 < s.nextPid) (run : (procFork pagePml4).run s = some (pid, t)) :
    pid = -1 ∧ SameTable s t ∨ ∃ idx, Born s idx s.current.pid pid t := by
  unfold procFork at run
  rw [run_bind_some (x := get) rfl] at run
  obtain ⟨child, s₁, cloned, run⟩ := run_bind_eq_some.mp run
  have same₁ := sameTable_onMachine cloned
  split at run
  · obtain ⟨rfl, rfl⟩ := pure_run run
    exact .inl ⟨rfl, same₁⟩
  obtain ⟨kstack, s₂, stacked, run⟩ := run_bind_eq_some.mp run
  have same₂ := same₁.trans (sameTable_onMachine stacked)
  split at run
  · obtain ⟨rfl, rfl⟩ := pure_run run
    exact .inl ⟨rfl, same₂⟩
  obtain ⟨frame, s₃, built, run⟩ := run_bind_eq_some.mp run
  have same₃ := same₂.trans (sameTable_onMachine built)
  rw [run_bind_some (x := get) rfl] at run
  split at run
  · obtain ⟨rfl, rfl⟩ := pure_run run
    exact .inl ⟨rfl, same₃⟩
  next idx found =>
  obtain ⟨number, s₄, numbered, run⟩ := run_bind_eq_some.mp run
  obtain ⟨number', s₄', numbered', fresh⟩ := pidAlloc_run (s := s₃) (by rw [same₃.nextPid]; exact positive)
  obtain ⟨rfl, rfl⟩ := Prod.mk.inj (Option.some.inj (numbered.symm.trans numbered'))
  rw [if_neg (fun negative => Int32.not_le.mpr fresh.positive (Int32.le_of_lt negative))] at run
  obtain ⟨_, s₅, stored, run⟩ := run_bind_eq_some.mp run
  cases stored
  obtain ⟨rfl, rfl⟩ := pure_run run
  have current : s₄.current = s.current := by
    unfold Kernel.current
    rw [fresh.state, ← same₃.procs, ← same₃.current]
  refine .inr ⟨idx, ?_⟩
  rw [← current]
  exact born_of (p := childOf s₄.current number child kstack frame) same₃ found fresh rfl rfl rfl rfl rfl rfl rfl

theorem procCreate_table {entry rsp cr3 kstack : UInt64} (positive : 0 < s.nextPid)
    (run : (procCreate entry rsp cr3 kstack).run s = some (pid, t)) : pid = -1 ∧ SameTable s t ∨ ∃ idx, Born s idx 1 pid t := by
  unfold procCreate at run
  rw [run_bind_some (x := get) rfl] at run
  cases found : freeProc s.procs with
  | none =>
      rw [found] at run
      obtain ⟨rfl, rfl⟩ := pure_run run
      exact .inl ⟨rfl, .refl _⟩
  | some idx =>
  rw [found] at run
  obtain ⟨number, s₁, numbered, run⟩ := run_bind_eq_some.mp run
  obtain ⟨number', s₁', numbered', fresh⟩ := pidAlloc_run positive
  obtain ⟨rfl, rfl⟩ := Prod.mk.inj (Option.some.inj (numbered.symm.trans numbered'))
  rw [if_neg (fun negative => Int32.not_le.mpr fresh.positive (Int32.le_of_lt negative))] at run
  obtain ⟨_, s₂, zeroed, run⟩ := run_bind_eq_some.mp run
  obtain ⟨m₂, -, rfl⟩ := onMachine_run zeroed
  obtain ⟨_, s₃, framed, run⟩ := run_bind_eq_some.mp run
  obtain ⟨m₃, -, rfl⟩ := onMachine_run framed
  obtain ⟨_, s₄, stored, run⟩ := run_bind_eq_some.mp run
  cases stored
  obtain ⟨rfl, rfl⟩ := pure_run run
  let child := createdProc (s₁.procs idx) number cr3 kstack (kstack + kstackSize - 22 * 8)
  exact .inr ⟨idx, born_of (p := child) (.refl s) found fresh rfl rfl rfl rfl rfl rfl rfl⟩

def usedSlots (procs : Nat → Process) : Finset Nat := (Finset.range maxProcs).filter fun i => (procs i).used = true

structure TableInv (s : Kernel σ) : Prop where
  next : 0 < s.nextPid
  positive : ∀ i < maxProcs, (s.procs i).used = true → 0 < (s.procs i).pid
  distinct : ∀ i < maxProcs, ∀ j < maxProcs, (s.procs i).used = true → (s.procs j).used = true → (s.procs i).pid = (s.procs j).pid → i = j
  state : ∀ i < maxProcs, (s.procs i).used = true → (s.procs i).state = .ready ∨ (s.procs i).state = .zombie
  count : s.nrProcs = (usedSlots s.procs).card

theorem mem_usedSlots {procs : Nat → Process} {i : Nat} : i ∈ usedSlots procs ↔ i < maxProcs ∧ (procs i).used = true := by
  unfold usedSlots
  rw [Finset.mem_filter, Finset.mem_range]

theorem TableInv.same (inv : TableInv s) (same : SameTable s t) : TableInv t := by
  obtain ⟨procs, current, nextPid, count⟩ := same
  exact ⟨by rw [nextPid]; exact inv.next, by rw [procs]; exact inv.positive, by rw [procs]; exact inv.distinct,
    by rw [procs]; exact inv.state, by rw [procs, count]; exact inv.count⟩

theorem TableInv.born {idx : Nat} {parent : Int32} (inv : TableInv s) (born : Born s idx parent pid t) : TableInv t where
  next := born.next
  positive := by
    intro i small used
    by_cases here : i = idx
    · rw [here, born.named]
      exact born.positive
    · rw [born.others i here] at used ⊢
      exact inv.positive i small used
  distinct := by
    intro i hi j hj usedI usedJ same
    by_cases hereI : i = idx <;> by_cases hereJ : j = idx
    · rw [hereI, hereJ]
    · rw [hereI, born.named, born.others j hereJ] at same
      rw [born.others j hereJ] at usedJ
      exact (born.fresh j hj usedJ same.symm).elim
    · rw [hereJ, born.named, born.others i hereI] at same
      rw [born.others i hereI] at usedI
      exact (born.fresh i hi usedI same).elim
    · rw [born.others i hereI] at usedI same
      rw [born.others j hereJ] at usedJ same
      exact inv.distinct i hi j hj usedI usedJ same
  state := by
    intro i small used
    by_cases here : i = idx
    · rw [here, born.state]
      exact .inl rfl
    · rw [born.others i here] at used ⊢
      exact inv.state i small used
  count := by
    have slots : usedSlots t.procs = insert idx (usedSlots s.procs) := by
      ext i
      rw [Finset.mem_insert, mem_usedSlots, mem_usedSlots]
      by_cases here : i = idx
      · rw [here, born.used]
        simp [born.slot]
      · rw [born.others i here]
        simp [here]
    have fresh : idx ∉ usedSlots s.procs := by
      rw [mem_usedSlots, born.free]
      simp
    rw [born.count, slots, Finset.card_insert_of_notMem fresh, inv.count]
    push_cast
    rfl

/-- A call that leaves the slots in use, and their numbers. -/
structure SameSlots (s t : Kernel σ) : Prop where
  used : ∀ i, (t.procs i).used = (s.procs i).used
  pid : ∀ i, (t.procs i).pid = (s.procs i).pid
  state : ∀ i, (t.procs i).state = (s.procs i).state ∨ (t.procs i).state = .zombie
  nextPid : t.nextPid = s.nextPid
  count : t.nrProcs = s.nrProcs

theorem TableInv.slots (inv : TableInv s) (same : SameSlots s t) : TableInv t where
  next := by rw [same.nextPid]; exact inv.next
  positive := by
    intro i small used
    rw [same.used] at used
    rw [same.pid]
    exact inv.positive i small used
  distinct := by
    intro i hi j hj usedI usedJ equal
    rw [same.used] at usedI usedJ
    rw [same.pid, same.pid] at equal
    exact inv.distinct i hi j hj usedI usedJ equal
  state := by
    intro i small used
    rw [same.used] at used
    rcases same.state i with kept | zombie
    · rw [kept]
      exact inv.state i small used
    · exact .inr zombie
  count := by
    have slots : usedSlots t.procs = usedSlots s.procs := by
      ext i
      rw [mem_usedSlots, mem_usedSlots, same.used]
    rw [same.count, slots, inv.count]

theorem sameSlots_setProc (s : Kernel σ) (idx : Nat) {p : Process} (used : p.used = (s.procs idx).used)
    (named : p.pid = (s.procs idx).pid) (state : p.state = (s.procs idx).state ∨ p.state = .zombie) :
    SameSlots s (s.setProc idx p) := by
  have slot (i : Nat) : (s.setProc idx p).procs i = if i = idx then p else s.procs i := Function.update_apply _ _ _ _
  refine ⟨fun i => ?_, fun i => ?_, fun i => ?_, rfl, rfl⟩
  all_goals
    rw [slot]
    split
    · next here =>
        subst here
        assumption
  · rfl
  · rfl
  · exact .inl rfl

theorem SameSlots.refl (s : Kernel σ) : SameSlots s s := ⟨fun _ => rfl, fun _ => rfl, fun _ => .inl rfl, rfl, rfl⟩

theorem procExit_slots {code : Int32} (run : (procExit code).run s = some ((), t)) : SameSlots s t := by
  cases run
  exact sameSlots_setProc s _ rfl rfl (.inr rfl)

theorem saveFrame_slots (s : Kernel σ) (frame : UInt64) : SameSlots s (s.saveFrame frame) := by
  unfold Kernel.saveFrame
  split
  · exact sameSlots_setProc s _ rfl rfl (.inl rfl)
  · exact .refl s

theorem switchNext_procs (s : Kernel σ) : s.switchNext.procs = s.procs ∧ s.switchNext.nextPid = s.nextPid ∧ s.switchNext.nrProcs = s.nrProcs := by
  unfold Kernel.switchNext
  dsimp only
  split
  · exact ⟨rfl, rfl, rfl⟩
  split
  · exact ⟨rfl, rfl, rfl⟩
  · exact ⟨rfl, rfl, rfl⟩

theorem switchProc_slots {frame : UInt64} (run : (switchProc frame).run s = some ((), t)) : SameSlots s t := by
  cases run
  have saved := saveFrame_slots s frame
  obtain ⟨procs, nextPid, count⟩ := switchNext_procs (s.saveFrame frame)
  refine ⟨?_, ?_, ?_, nextPid.trans saved.nextPid, count.trans saved.count⟩
  · rw [procs]
    exact saved.used
  · rw [procs]
    exact saved.pid
  · rw [procs]
    exact saved.state

theorem isZombieOf_iff {p : Process} : isZombieOf pid p = true ↔ p.used = true ∧ p.state = .zombie ∧ p.parent = pid := by
  unfold isZombieOf
  rw [Bool.and_eq_true, Bool.and_eq_true, decide_eq_true_eq, beq_iff_eq, and_assoc]

theorem TableInv.reap {idx : Nat} (inv : TableInv s) (slot : idx < maxProcs) (used : (s.procs idx).used = true) :
    TableInv { s.setProc idx { s.procs idx with used := false } with nrProcs := s.nrProcs - 1 } := by
  have procs (i : Nat) : (s.setProc idx { s.procs idx with used := false }).procs i =
      if i = idx then { s.procs idx with used := false } else s.procs i := Function.update_apply _ _ _ _
  have old (i : Nat) (live : ((s.setProc idx { s.procs idx with used := false }).procs i).used = true) :
      (s.setProc idx { s.procs idx with used := false }).procs i = s.procs i := by
    rw [procs] at live ⊢
    split at live
    · cases live
    · next other => rw [if_neg other]
  refine ⟨inv.next, ?_, ?_, ?_, ?_⟩
  · intro i small live
    have same := old i live
    dsimp only at live ⊢
    rw [same] at live ⊢
    exact inv.positive i small live
  · intro i hi j hj liveI liveJ equal
    have sameI := old i liveI
    have sameJ := old j liveJ
    dsimp only at liveI liveJ equal
    rw [sameI] at liveI equal
    rw [sameJ] at liveJ equal
    exact inv.distinct i hi j hj liveI liveJ equal
  · intro i small live
    have same := old i live
    dsimp only at live ⊢
    rw [same] at live ⊢
    exact inv.state i small live
  · have slots : usedSlots (s.setProc idx { s.procs idx with used := false }).procs = (usedSlots s.procs).erase idx := by
      ext i
      rw [Finset.mem_erase, mem_usedSlots, mem_usedSlots, procs]
      split
      · next here => simp [here]
      · next other => simp [other]
    have member : idx ∈ usedSlots s.procs := mem_usedSlots.mpr ⟨slot, used⟩
    have positive := Finset.card_pos.mpr ⟨idx, member⟩
    dsimp only
    rw [slots, Finset.card_erase_of_mem member, inv.count]
    omega

theorem procWait_inv {result : WaitResult} (inv : TableInv s) (run : procWait.run s = some (result, t)) : TableInv t := by
  unfold procWait at run
  rw [run_bind_some (x := get) rfl] at run
  dsimp only at run
  split at run
  · next i found =>
      obtain ⟨-, small, here, -⟩ := firstFrom_some found
      cases run
      exact inv.reap (by omega) (isZombieOf_iff.mp here).1
  · split at run
    · obtain ⟨-, rfl⟩ := pure_run run
      exact inv
    · obtain ⟨-, rfl⟩ := pure_run run
      exact inv

theorem procStep_inv {e : ProcEvent} (inv : TableInv s) (step : ProcStep pagePml4 s e t) : TableInv t := by
  cases step with
  | fork run =>
      rcases procFork_table inv.next run with ⟨-, same⟩ | ⟨idx, born⟩
      · exact inv.same same
      · exact inv.born born
  | exit run => exact inv.slots (procExit_slots run)
  | wait run => exact procWait_inv inv run
  | switch run => exact inv.slots (switchProc_slots run)

theorem schedInit_inv (run : schedInit.run s = some ((), t)) : TableInv t := by
  cases run
  have free (i : Nat) (small : i < maxProcs) : (if i < maxProcs then { s.procs i with used := false } else s.procs i).used = false := by
    rw [if_pos small]
  refine ⟨(by decide : (0 : Int32) < 1), ?_, ?_, ?_, ?_⟩
  · intro i small used
    rw [free i small] at used
    cases used
  · intro i small j _ used
    rw [free i small] at used
    cases used
  · intro i small used
    rw [free i small] at used
    cases used
  · have none : usedSlots (fun i => if i < maxProcs then { s.procs i with used := false } else s.procs i) = ∅ := by
      refine Finset.eq_empty_of_forall_notMem fun i member => ?_
      obtain ⟨small, used⟩ := mem_usedSlots.mp member
      rw [free i small] at used
      cases used
    dsimp only
    rw [none]
    rfl

theorem tableRun_inv (run : TableRun pagePml4 s t) : TableInv t := by
  induction run with
  | start run => exact schedInit_inv run
  | create before run ih =>
      rcases procCreate_table ih.next run with ⟨-, same⟩ | ⟨idx, born⟩
      · exact ih.same same
      · exact ih.born born
  | proc before step ih => exact procStep_inv ih step

/-- In every run the numbers of the processes are positive and differ, `nr_procs` counts the slots in use, and `pid_alloc` has a
number for the next process, also in the middle of a call that has not changed the table yet. -/
theorem table_well_formed (run : TableRun pagePml4 s t) :
    (∀ i < maxProcs, (t.procs i).used = true → 0 < (t.procs i).pid ∧ ((t.procs i).state = .ready ∨ (t.procs i).state = .zombie)) ∧
      (∀ i < maxProcs, ∀ j < maxProcs, (t.procs i).used = true → (t.procs j).used = true → (t.procs i).pid = (t.procs j).pid → i = j) ∧
      t.nrProcs = (usedSlots t.procs).card ∧
      ∀ u : Kernel σ, u.procs = t.procs → u.nextPid = t.nextPid → ∃ pid v, pidAlloc.run u = some (pid, v) ∧ pid ≠ -1 := by
  have inv := tableRun_inv run
  refine ⟨fun i small used => ⟨inv.positive i small used, inv.state i small used⟩, inv.distinct, inv.count, fun u _ next => ?_⟩
  obtain ⟨pid, v, alloc, number⟩ := pidAlloc_run (s := u) (by rw [next]; exact inv.next)
  refine ⟨pid, v, alloc, ?_⟩
  rintro rfl
  exact absurd number.positive (by decide)

/-- `kmain` creates the first process, and it exits. -/
def firstCall : KernelM Fs.Disk Int32 := do
  schedInit
  let pid ← procCreate 0x8000000 0x7F003000 0x1000 0x3000
  procExit 0
  return pid

theorem table_well_formed_first : ∃ t, TableRun 0x1000 oneProcess t ∧ (t.procs 0).state = .zombie ∧ t.nrProcs = (usedSlots t.procs).card := by
  have value : (firstCall.run oneProcess).map (fun r => (r.1, (r.2.procs 0).state)) = some (1, .zombie) := by decide +kernel
  obtain ⟨⟨pid, t⟩, run, same⟩ := Option.map_eq_some_iff.mp value
  obtain ⟨_, s₁, init, run⟩ := run_bind_eq_some.mp run
  obtain ⟨number, s₂, create, run⟩ := run_bind_eq_some.mp run
  obtain ⟨_, s₃, exit, run⟩ := run_bind_eq_some.mp run
  obtain ⟨-, rfl⟩ := pure_run run
  have reached : TableRun 0x1000 oneProcess s₃ := ((TableRun.start init).create create).proc (.exit exit)
  exact ⟨s₃, reached, (Prod.mk.inj same).2, (table_well_formed reached).2.2.1⟩
end SwiftBSD.Proof.Sched
