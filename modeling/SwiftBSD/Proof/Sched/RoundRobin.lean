import SwiftBSD.Proof.Sched.Process
import SwiftBSD.Sched.RoundRobin

namespace SwiftBSD.Proof.Sched
open Lib SwiftBSD.Sched

variable {σ : Type} {s t : Kernel σ} {frame : UInt64} {procs : Nat → Process} {idx n k : Nat}

def slotAfter (idx n : Nat) : Nat := (idx + n) % maxProcs

theorem slotAfter_lt : slotAfter idx n < maxProcs := Nat.mod_lt _ (by decide)

theorem slotAfter_succ : (slotAfter idx n + 1) % maxProcs = slotAfter idx (n + 1) := by
  unfold slotAfter
  rw [Nat.mod_add_mod, Nat.add_assoc]

theorem slotAfter_zero (slot : idx < maxProcs) : slotAfter idx 0 = idx := Nat.mod_eq_of_lt slot

theorem slotAfter_past (slot : idx < maxProcs) : slotAfter idx (maxProcs + 1) ≠ idx := by
  have inside := Nat.mod_eq_of_lt slot
  unfold slotAfter maxProcs at *
  omega

def nextReady (procs : Nat → Process) (idx n : Nat) : Option Nat :=
  firstFrom (fun k => (procs (slotAfter idx k)).runnable) (n + 1) (maxProcs - n)

theorem searchReady_eq (procs : Nat → Process) (idx : Nat) {n : Nat} (few : n ≤ maxProcs) :
    searchReady procs n (slotAfter idx n) =
      ((nextReady procs idx n).getD (maxProcs + 1), slotAfter idx ((nextReady procs idx n).getD (maxProcs + 1))) := by
  obtain ⟨left, total⟩ := Nat.exists_eq_add_of_le few
  induction left generalizing n with
  | zero =>
      have last : n = maxProcs := by omega
      have none : nextReady procs idx n = none := by
        unfold nextReady
        rw [last, Nat.sub_self]
        rfl
      rw [none]
      unfold searchReady
      rw [slotAfter_succ]
      dsimp only
      rw [if_neg (fun more => by omega), last]
      rfl
  | succ left ih =>
      unfold searchReady
      rw [slotAfter_succ]
      dsimp only
      have step : nextReady procs idx n =
          if (procs (slotAfter idx (n + 1))).runnable then some (n + 1) else nextReady procs idx (n + 1) := by
        unfold nextReady
        rw [show maxProcs - n = maxProcs - (n + 1) + 1 by omega]
        rfl
      rw [step]
      by_cases ready : (procs (slotAfter idx (n + 1))).runnable = true
      · rw [if_neg (fun more => by rw [ready] at more; cases more.2), if_pos ready]
        rfl
      · rw [if_pos ⟨by omega, eq_false_of_ne_true ready⟩, if_neg ready]
        exact ih (by omega) (by omega)

theorem nextReady_none : nextReady procs idx 0 = none ↔ ∀ k, 1 ≤ k → k ≤ maxProcs → (procs (slotAfter idx k)).runnable = false := by
  unfold nextReady
  rw [firstFrom_none]
  constructor
  · intro all k lower upper
    exact all k lower (by omega)
  · intro all k lower upper
    exact all k lower (by omega)

theorem nextReady_some (found : nextReady procs idx 0 = some k) : 1 ≤ k ∧ k ≤ maxProcs ∧ (procs (slotAfter idx k)).runnable = true ∧
    ∀ j, 1 ≤ j → j < k → (procs (slotAfter idx j)).runnable = false := by
  obtain ⟨lower, upper, ready, before⟩ := firstFrom_some found
  exact ⟨lower, by omega, ready, before⟩

theorem saveFrame_runnable (s : Kernel σ) (frame : UInt64) (i : Nat) : ((s.saveFrame frame).procs i).runnable = (s.procs i).runnable := by
  unfold Kernel.saveFrame
  split
  · change (Function.update s.procs s.currentIdx _ i).runnable = _
    rw [Function.update_apply]
    split
    · next here =>
        rw [here]
        rfl
    · rfl
  · rfl

theorem saveFrame_other (s : Kernel σ) (frame : UInt64) {i : Nat} (other : i ≠ s.currentIdx) : (s.saveFrame frame).procs i = s.procs i := by
  unfold Kernel.saveFrame
  split
  · exact Function.update_of_ne other _ _
  · rfl

theorem saveFrame_current (s : Kernel σ) (frame : UInt64) : (s.saveFrame frame).procs s.currentIdx =
    if s.current.used then { s.current with frame } else s.current := by
  unfold Kernel.saveFrame
  split
  · exact Function.update_self _ _ _
  · rfl

theorem saveFrame_idx (s : Kernel σ) (frame : UInt64) : (s.saveFrame frame).currentIdx = s.currentIdx := by
  unfold Kernel.saveFrame
  split <;> rfl

theorem nextReady_saved (s : Kernel σ) (frame : UInt64) : nextReady (s.saveFrame frame).procs idx n = nextReady s.procs idx n := by
  unfold nextReady
  congr 1
  funext k
  exact saveFrame_runnable s frame _

theorem switchNext_eq (s : Kernel σ) : s.switchNext = match nextReady s.procs s.currentIdx 0 with
    | none => { s with currentIdx := slotAfter s.currentIdx (maxProcs + 1) }
    | some k =>
        if slotAfter s.currentIdx k = s.currentIdx ∨ (s.procs (slotAfter s.currentIdx k)).cr3 = 0 then
          { s with currentIdx := slotAfter s.currentIdx k }
        else
          { s with
            currentIdx := slotAfter s.currentIdx k
            machine := { s.machine with cr3 := (s.procs (slotAfter s.currentIdx k)).cr3 } } := rfl

theorem switchNext_table (s : Kernel σ) : s.switchNext.procs = s.procs := by
  rw [switchNext_eq]
  split
  · rfl
  · split <;> rfl

def chosen (s : Kernel σ) : Nat := slotAfter s.currentIdx ((nextReady s.procs s.currentIdx 0).getD (maxProcs + 1))

theorem searchReady_saved (slot : s.currentIdx < maxProcs) : searchReady (s.saveFrame frame).procs 0 (s.saveFrame frame).currentIdx =
    ((nextReady s.procs s.currentIdx 0).getD (maxProcs + 1), chosen s) := by
  have search := searchReady_eq (s.saveFrame frame).procs s.currentIdx (Nat.zero_le maxProcs)
  rw [slotAfter_zero slot, nextReady_saved] at search
  rw [saveFrame_idx, search]
  rfl

theorem schedIrqReturnFrame_run (slot : s.currentIdx < maxProcs) : ∃ r, (schedIrqReturnFrame frame).run s = some (r, (s.saveFrame frame).switchNext) ∧
    (s.saveFrame frame).switchNext.currentIdx = chosen s ∧
    r.frame = if nextReady s.procs s.currentIdx 0 = none ∨ chosen s = s.currentIdx then frame else (s.procs (chosen s)).frame := by
  have search := @searchReady_saved _ s frame slot
  have idx := saveFrame_idx s frame
  have same : nextReady (s.saveFrame frame).procs (s.saveFrame frame).currentIdx 0 = nextReady s.procs s.currentIdx 0 := by
    rw [idx]
    exact nextReady_saved s frame
  have next := switchNext_eq (s.saveFrame frame)
  rw [same] at next
  unfold schedIrqReturnFrame
  rw [run_bind_some (x := modify _) rfl, run_bind_some (x := get) rfl]
  dsimp only
  rw [search]
  dsimp only
  rw [run_bind_some (x := set _) rfl, idx, next]
  cases found : nextReady s.procs s.currentIdx 0 with
  | none =>
      have slot' : chosen s = slotAfter s.currentIdx (maxProcs + 1) := by
        rw [chosen, found]
        rfl
      rw [Option.getD_none, if_pos (.inl (Nat.lt_succ_self _)), if_pos (.inl rfl), slot', idx]
      exact ⟨_, rfl, rfl, rfl⟩
  | some k =>
      have upper := (nextReady_some found).2.1
      have slot' : chosen s = slotAfter s.currentIdx k := by
        rw [chosen, found]
        rfl
      rw [Option.getD_some, slot', idx]
      dsimp only
      by_cases stays : slotAfter s.currentIdx k = s.currentIdx
      · rw [if_pos (c := maxProcs < k ∨ _) (.inr stays), if_pos (c := some k = none ∨ _) (.inr stays), if_pos (.inl stays)]
        exact ⟨_, rfl, rfl, rfl⟩
      · have goes : ¬ (maxProcs < k ∨ slotAfter s.currentIdx k = s.currentIdx) := by
          rintro (more | same)
          · omega
          · exact stays same
        have goes' : ¬ (some k = none ∨ slotAfter s.currentIdx k = s.currentIdx) := by
          rintro (none | same)
          · cases none
          · exact stays same
        rw [if_neg goes, if_neg goes', saveFrame_other s frame stays]
        by_cases kernel : (s.procs (slotAfter s.currentIdx k)).cr3 = 0
        · rw [if_pos (c := slotAfter s.currentIdx k = s.currentIdx ∨ _) (.inr kernel), if_neg (not_not.mpr kernel)]
          exact ⟨_, rfl, rfl, rfl⟩
        · rw [if_neg (c := slotAfter s.currentIdx k = s.currentIdx ∨ _) (fun h => h.elim stays kernel), if_pos kernel]
          exact ⟨_, rfl, rfl, rfl⟩

/-- What a round robin does: the next process that is ready, the running one last, or nothing if none is. -/
structure NextChosen (s : Kernel σ) (frame : UInt64) (r : IrqReturn) (t : Kernel σ) : Prop where
  first : ∀ n, 1 ≤ n → n ≤ maxProcs → (s.procs (slotAfter s.currentIdx n)).runnable = true →
    (∀ k, 1 ≤ k → k < n → (s.procs (slotAfter s.currentIdx k)).runnable = false) → t.currentIdx = slotAfter s.currentIdx n ∧
      r.frame = if slotAfter s.currentIdx n = s.currentIdx then frame else (s.procs (slotAfter s.currentIdx n)).frame
  none : (∀ i < maxProcs, (s.procs i).runnable = false) → t.currentIdx = s.currentIdx ∧ r.frame = frame
  others : ∀ i, i ≠ s.currentIdx → t.procs i = s.procs i
  saved : t.procs s.currentIdx = if s.current.used then { s.current with frame } else s.current

theorem not_nextChosen (slot : s.currentIdx < maxProcs) (idle : ∀ i < maxProcs, (s.procs i).runnable = false) :
    ∃ r t, (schedIrqReturnFrame frame).run s = some (r, t) ∧ t.currentIdx ≠ s.currentIdx := by
  obtain ⟨r, run, current, -⟩ := @schedIrqReturnFrame_run _ s frame slot
  have none : nextReady s.procs s.currentIdx 0 = none := nextReady_none.mpr fun k _ _ => idle _ slotAfter_lt
  refine ⟨r, _, run, ?_⟩
  rw [current, chosen, none]
  exact slotAfter_past slot

/-- The next process is chosen as it should be if and only if there is one that is ready. -/
theorem round_robin_iff (frame : UInt64) (slot : s.currentIdx < maxProcs) :
    (∃ r t, (schedIrqReturnFrame frame).run s = some (r, t) ∧ NextChosen s frame r t) ↔ ∃ i < maxProcs, (s.procs i).runnable = true := by
  constructor
  · rintro ⟨r, t, run, right⟩
    by_contra none
    have idle (i : Nat) (small : i < maxProcs) : (s.procs i).runnable = false :=
      eq_false_of_ne_true fun ready => none ⟨i, small, ready⟩
    obtain ⟨r', t', run', moved⟩ := @not_nextChosen _ s frame slot idle
    obtain ⟨rfl, rfl⟩ := Prod.mk.inj (Option.some.inj (run.symm.trans run'))
    exact moved (right.none idle).1
  · rintro ⟨i, small, ready⟩
    obtain ⟨r, run, current, result⟩ := @schedIrqReturnFrame_run _ s frame slot
    have procs := switchNext_table (s.saveFrame frame)
    refine ⟨r, _, run, fun n lower upper here before => ?_, fun idle => ?_, fun j other => ?_, ?_⟩
    · have found : nextReady s.procs s.currentIdx 0 = some n := by
        cases search : nextReady s.procs s.currentIdx 0 with
        | none =>
            rw [nextReady_none.mp search n lower upper] at here
            cases here
        | some k =>
            obtain ⟨lower', upper', ready', before'⟩ := nextReady_some search
            rcases Nat.lt_trichotomy k n with less | same | more
            · rw [before k lower' less] at ready'
              cases ready'
            · rw [same]
            · rw [before' n lower more] at here
              cases here
      have slot' : chosen s = slotAfter s.currentIdx n := by
        rw [chosen, found]
        rfl
      rw [found, slot'] at result
      exact ⟨current.trans slot', by simpa using result⟩
    · rw [idle i small] at ready
      cases ready
    · rw [procs]
      exact saveFrame_other s frame other
    · rw [procs]
      exact saveFrame_current s frame

def exitedTable : Kernel Fs.Disk := oneProcess.setProc 0 { oneProcess.procs 0 with state := .zombie }

/-- A process that runs, and one that waits for its turn. -/
def twoProcesses : Kernel Fs.Disk := oneProcess.setProc 1 { noProcess with used := true, pid := 2 }

theorem round_robin_two : ∃ r t, (schedIrqReturnFrame 0).run twoProcesses = some (r, t) ∧ NextChosen twoProcesses 0 r t :=
  (round_robin_iff (s := twoProcesses) 0 (by decide)).mpr ⟨1, by decide, rfl⟩

theorem exited_moves_on : ¬ ∀ (s : Kernel Fs.Disk) (frame : UInt64), s.currentIdx < maxProcs →
    ∃ r t, (schedIrqReturnFrame frame).run s = some (r, t) ∧ NextChosen s frame r t := by
  intro all
  have idle (i : Nat) (_ : i < maxProcs) : (exitedTable.procs i).runnable = false := by
    by_cases first : i = 0
    · rw [first]
      rfl
    · have unused : exitedTable.procs i = noProcess := by simp [exitedTable, Kernel.setProc, oneProcess, Function.update_of_ne first]
      rw [unused]
      rfl
  obtain ⟨r, t, run, right⟩ := all exitedTable 0 (by decide)
  obtain ⟨r', t', run', moved⟩ := @not_nextChosen _ exitedTable 0 (by decide) idle
  obtain ⟨rfl, rfl⟩ := Prod.mk.inj (Option.some.inj (run.symm.trans run'))
  exact moved (right.none idle).1

end SwiftBSD.Proof.Sched
