import SwiftBSD.Sched.Switch

namespace SwiftBSD.Proof.Sched
open SwiftBSD.Sched Lib

def ctx (s : Sys) (q : Nat) : Context := if q = s.currentIdx then s.cpu else (s.procs q).frame

def Live (s : Sys) (q : Nat) : Prop := q < maxProcs ∧ (s.procs q).runnable = true

/-- The stub has still to load `user_rsp_save`. -/
def Inside : Phase → Prop
  | .handler _ | .returned _ | .stored | .loaded _ => True
  | .user | .exiting | .switched _ _ => False

/-- No other process waits for the variable that a move overwrites, or the variable keeps its value. -/
def Undisturbed (s : Sys) : Move → Prop
  | .syscall _ rsp => ∀ q, q ≠ s.currentIdx → Live s q → Inside (s.procs q).frame.phase → rsp = s.userRspSave
  | .store => ∀ q, q ≠ s.currentIdx → Live s q → (s.procs q).frame.phase = .stored →
      ∀ rax, s.cpu.phase = .returned rax → rax = s.retvalSave
  | _ => True

/-- A call that has come to a phase returns what it should. -/
def Holds (s : Sys) (call : Call) : Phase → Prop
  | .user | .exiting => True
  | .handler _ => call = .entered s.userRspSave
  | .returned rax | .loaded rax => call = .computed s.userRspSave rax
  | .stored => call = .computed s.userRspSave s.retvalSave
  | .switched rax rsp => call = .computed rsp rax

structure Consistent (s : Sys) (events : List Event) : Prop where
  slot : s.currentIdx < maxProcs
  own : ∀ q, Live s q → (ctx s q).who = q
  holds : ∀ q, Live s q → Holds s (lastCall q events) (ctx s q).phase
  gone : ¬Live s s.currentIdx → s.cpu.phase = .exiting

theorem ctx_current (s : Sys) : ctx s s.currentIdx = s.cpu := if_pos rfl

theorem ctx_other {s : Sys} {q : Nat} (other : q ≠ s.currentIdx) : ctx s q = (s.procs q).frame := if_neg other

theorem Consistent.live {s : Sys} {events : List Event} (inv : Consistent s events) (here : s.cpu.phase ≠ .exiting) :
    Live s s.currentIdx := by
  by_contra absent
  exact here (inv.gone absent)

theorem Consistent.who {s : Sys} {events : List Event} (inv : Consistent s events) (here : s.cpu.phase ≠ .exiting) :
    s.cpu.who = s.currentIdx := by
  have := inv.own s.currentIdx (inv.live here)
  rwa [ctx_current] at this

theorem Consistent.cpu {s : Sys} {events : List Event} (inv : Consistent s events) (here : s.cpu.phase ≠ .exiting) :
    Holds s (lastCall s.currentIdx events) s.cpu.phase := by
  have := inv.holds s.currentIdx (inv.live here)
  rwa [ctx_current] at this

theorem consistent_start {s : Sys} (start : Start s) : Consistent s [] := by
  have user : ∀ q, Live s q → ctx s q = ⟨q, .user, true⟩ := by
    intro q live
    by_cases here : q = s.currentIdx
    · subst here
      rw [ctx_current, start.cpu]
    · rw [ctx_other here]
      apply start.frames
      have := live.2
      simp only [Proc.runnable, Bool.and_eq_true] at this
      exact this.1
  refine ⟨start.slot, fun q live => ?_, fun q live => ?_, fun absent => ?_⟩
  · rw [user q live]
  · rw [user q live]
    trivial
  · exact absurd ⟨start.slot, start.runs⟩ absent

section Switch
variable {s : Sys}

def saved (s : Sys) : Nat → Proc :=
  if (s.procs s.currentIdx).used then
    Function.update s.procs s.currentIdx { s.procs s.currentIdx with frame := s.cpu }
  else s.procs

theorem saved_runnable (s : Sys) (q : Nat) : (saved s q).runnable = (s.procs q).runnable := by
  unfold saved
  split
  · by_cases here : q = s.currentIdx
    · subst here
      simp [Proc.runnable]
    · simp [here]
  · rfl

theorem saved_frame {q : Nat} (live : Live s q) : (saved s q).frame = (ctx s q) := by
  have used : (s.procs q).used = true := by
    have := live.2
    simp only [Proc.runnable, Bool.and_eq_true] at this
    exact this.1
  unfold saved
  by_cases here : q = s.currentIdx
  · subst here
    simp [used, ctx_current]
  · rw [ctx_other here]
    split
    · simp [here]
    · rfl

theorem schedIrqReturn_eq (s : Sys) : schedIrqReturn s =
    match firstFrom (fun tries => (saved s ((s.currentIdx + tries) % maxProcs)).runnable) 1 maxProcs with
    | none => { s with procs := saved s, currentIdx := (s.currentIdx + maxProcs + 1) % maxProcs }
    | some tries =>
        let idx := (s.currentIdx + tries) % maxProcs
        { s with procs := saved s, currentIdx := idx, cpu := if idx = s.currentIdx then s.cpu else (saved s idx).frame } :=
  rfl

theorem schedIrqReturn_cases (s : Sys) :
    ((∀ q, ¬Live s q) ∧
      schedIrqReturn s = { s with procs := saved s, currentIdx := (s.currentIdx + maxProcs + 1) % maxProcs }) ∨
    ∃ q, Live s q ∧ schedIrqReturn s =
      { s with procs := saved s, currentIdx := q, cpu := if q = s.currentIdx then s.cpu else (saved s q).frame } := by
  cases found : firstFrom (fun tries => (saved s ((s.currentIdx + tries) % maxProcs)).runnable) 1 maxProcs with
  | none =>
      left
      refine ⟨fun q live => ?_, by simp only [schedIrqReturn_eq, found]⟩
      -- the search has looked at every slot
      have all := firstFrom_none.mp found
      have positive : 0 < maxProcs := by decide
      obtain ⟨tries, lower, upper, same⟩ : ∃ tries, 1 ≤ tries ∧ tries < 1 + maxProcs ∧ (s.currentIdx + tries) % maxProcs = q := by
        have bound := live.1
        simp only [maxProcs] at bound ⊢
        refine ⟨(q + 64 - s.currentIdx % 64 - 1) % 64 + 1, by omega, by omega, by omega⟩
      have idle := all tries lower upper
      simp only [same, saved_runnable, live.2] at idle
      cases idle
  | some tries =>
      right
      have runs := (firstFrom_some found).2.2.1
      refine ⟨(s.currentIdx + tries) % maxProcs, ⟨Nat.mod_lt _ (by decide), ?_⟩, by simp only [schedIrqReturn_eq, found]⟩
      rwa [saved_runnable] at runs

theorem live_schedIrqReturn (s : Sys) (q : Nat) : Live (schedIrqReturn s) q ↔ Live s q := by
  unfold Live
  rcases schedIrqReturn_cases s with ⟨_, equal⟩ | ⟨p, _, equal⟩
  · rw [equal, saved_runnable]
  · rw [equal, saved_runnable]

theorem ctx_schedIrqReturn {q : Nat} (live : Live s q) : ctx (schedIrqReturn s) q = ctx s q := by
  rcases schedIrqReturn_cases s with ⟨none, _⟩ | ⟨p, _, equal⟩
  · exact absurd live (none q)
  · rw [equal]
    unfold ctx
    by_cases next : q = p
    · subst next
      rw [if_pos rfl]
      by_cases here : q = s.currentIdx
      · rw [if_pos here, if_pos here]
      · rw [if_neg here, if_neg here, saved_frame live, ctx_other here]
    · rw [if_neg next]
      exact saved_frame live

theorem Consistent.schedIrqReturn {events : List Event} (inv : Consistent s events) :
    Consistent (schedIrqReturn s) events := by
  have shared : (SwiftBSD.Sched.schedIrqReturn s).userRspSave = s.userRspSave ∧
      (SwiftBSD.Sched.schedIrqReturn s).retvalSave = s.retvalSave := by
    rcases schedIrqReturn_cases s with ⟨_, equal⟩ | ⟨_, _, equal⟩
    · rw [equal]
      exact ⟨rfl, rfl⟩
    · rw [equal]
      exact ⟨rfl, rfl⟩
  refine ⟨?_, fun q live => ?_, fun q live => ?_, fun absent => ?_⟩
  · rcases schedIrqReturn_cases s with ⟨_, equal⟩ | ⟨p, live, equal⟩
    · rw [equal]
      exact Nat.mod_lt _ (by decide)
    · rw [equal]
      exact live.1
  · rw [live_schedIrqReturn] at live
    rw [ctx_schedIrqReturn live]
    exact inv.own q live
  · rw [live_schedIrqReturn] at live
    rw [ctx_schedIrqReturn live]
    have := inv.holds q live
    unfold Holds at this ⊢
    rwa [shared.1, shared.2]
  · rcases schedIrqReturn_cases s with ⟨none, equal⟩ | ⟨p, live, equal⟩
    · rw [equal]
      exact inv.gone (none _)
    · rw [live_schedIrqReturn, equal] at absent
      exact absurd live absent

end Switch

section Moves
variable {s : Sys} {events : List Event}

theorem Consistent.go {t : Sys} {events' : List Event} (inv : Consistent s events) (here : s.cpu.phase ≠ .exiting)
    (table : t.procs = s.procs) (same : t.currentIdx = s.currentIdx) (who : t.cpu.who = s.cpu.who)
    (others : ∀ q, q ≠ s.currentIdx → lastCall q events' = lastCall q events)
    (mine : Holds t (lastCall s.currentIdx events') t.cpu.phase)
    (kept : ∀ q, q ≠ s.currentIdx → Live s q → Holds s (lastCall q events) (s.procs q).frame.phase →
      Holds t (lastCall q events) (s.procs q).frame.phase) : Consistent t events' := by
  have live : ∀ q, Live t q ↔ Live s q := by
    intro q
    unfold Live
    rw [table]
  have frames : ∀ q, q ≠ s.currentIdx → ctx t q = (s.procs q).frame := by
    intro q other
    rw [ctx_other (by rwa [same]), table]
  have running : ctx t s.currentIdx = t.cpu := by
    rw [← same, ctx_current]
  refine ⟨by rw [same]; exact inv.slot, fun q alive => ?_, fun q alive => ?_, fun absent => ?_⟩
  · rw [live] at alive
    by_cases current : q = s.currentIdx
    · rw [current, running, who, inv.who here]
    · rw [frames q current, ← ctx_other current]
      exact inv.own q alive
  · rw [live] at alive
    by_cases current : q = s.currentIdx
    · rw [current, running]
      exact mine
    · rw [frames q current, others q current]
      apply kept q current alive
      rw [← ctx_other current]
      exact inv.holds q alive
  · rw [live, same] at absent
    exact absurd (inv.live here) absent

theorem Consistent.goto {events' : List Event} {phase : Phase} {interrupts : Bool} (inv : Consistent s events)
    (here : s.cpu.phase ≠ .exiting) (others : ∀ q, q ≠ s.currentIdx → lastCall q events' = lastCall q events)
    (mine : Holds s (lastCall s.currentIdx events') phase) : Consistent (s.goto phase interrupts) events' := by
  refine inv.go here rfl rfl rfl others ?_ fun _ _ _ holds => ?_
  · exact mine
  · exact holds

theorem Consistent.table {procs : Nat → Proc} (inv : Consistent s events) (here : s.cpu.phase ≠ .exiting)
    (current : procs s.currentIdx = s.procs s.currentIdx)
    (others : ∀ q, q ≠ s.currentIdx → (procs q).runnable = true →
      procs q = s.procs q ∨ (procs q).frame = ⟨q, .user, true⟩) : Consistent { s with procs } events := by
  have running : ctx { s with procs } s.currentIdx = s.cpu := if_pos rfl
  have frames : ∀ q, q ≠ s.currentIdx → ctx { s with procs } q = (procs q).frame := fun q other => if_neg other
  have alive : ∀ q, Live { s with procs } q → procs q = s.procs q → Live s q := by
    intro q live equal
    exact ⟨live.1, by rw [← equal]; exact live.2⟩
  refine ⟨inv.slot, fun q live => ?_, fun q live => ?_, fun absent => ?_⟩
  · by_cases here' : q = s.currentIdx
    · rw [here', running, inv.who here]
    · rw [frames q here']
      rcases others q here' live.2 with equal | user
      · rw [equal, ← ctx_other here']
        exact inv.own q (alive q live equal)
      · rw [user]
  · by_cases here' : q = s.currentIdx
    · rw [here', running]
      exact inv.cpu here
    · rw [frames q here']
      rcases others q here' live.2 with equal | user
      · rw [equal, ← ctx_other here']
        exact inv.holds q (alive q live equal)
      · rw [user]
        trivial
  · have live := inv.live here
    have runs : (procs s.currentIdx).runnable = true := by rw [current]; exact live.2
    exact absurd ⟨live.1, runs⟩ absent

theorem runnable_used {p : Proc} (runs : p.runnable = true) : p.used = true ∧ p.state = .ready := by
  simpa [Proc.runnable] using runs

theorem Consistent.syscall {num rsp : UInt64} (inv : Consistent s events) (phase : s.cpu.phase = .user)
    (allowed : Undisturbed s (.syscall num rsp)) :
    Consistent { s.goto (.handler num) false with userRspSave := rsp } (.entered s.cpu.who rsp :: events) := by
  have here : s.cpu.phase ≠ .exiting := by rw [phase]; exact nofun
  refine inv.go here rfl rfl rfl (fun q other => ?_) ?_ fun q other live holds => ?_
  · simp [lastCall, inv.who here, Ne.symm other]
  · simp [lastCall, inv.who here, Holds, Sys.goto]
  · by_cases inside : Inside (s.procs q).frame.phase
    · have same := allowed q other live inside
      cases frame : (s.procs q).frame.phase <;> simp_all [Holds, Sys.goto]
    · cases frame : (s.procs q).frame.phase <;> simp_all [Holds, Inside]

theorem Consistent.store {rax : UInt64} (inv : Consistent s events) (phase : s.cpu.phase = .returned rax)
    (allowed : Undisturbed s .store) :
    Consistent { s.goto .stored s.cpu.interrupts with retvalSave := rax } events := by
  have here : s.cpu.phase ≠ .exiting := by rw [phase]; exact nofun
  have call := inv.cpu here
  rw [phase] at call
  refine inv.go here rfl rfl rfl (fun _ _ => rfl) call fun q other live holds => ?_
  by_cases stored : (s.procs q).frame.phase = .stored
  · have same := allowed q other live stored rax phase
    rw [stored] at holds ⊢
    simp_all [Holds, Sys.goto]
  · cases frame : (s.procs q).frame.phase <;> simp_all [Holds, Sys.goto]

theorem Consistent.fork {idx : Nat} {child : Proc} (inv : Consistent s events) (here : s.cpu.phase ≠ .exiting)
    (slot : slotAlloc s.procs = some idx) (user : child.frame = ⟨idx, .user, true⟩) :
    Consistent { s with procs := Function.update s.procs idx child } events := by
  have free := (firstFrom_some slot).2.2.1
  have running := (runnable_used (inv.live here).2).1
  have other : idx ≠ s.currentIdx := by
    rintro rfl
    simp [running] at free
  refine inv.table here (by simp [Ne.symm other]) fun q _ _ => ?_
  by_cases new : q = idx
  · right
    subst new
    simp [user]
  · left
    simp [new]

theorem Consistent.reap {slot : Nat} (inv : Consistent s events) (here : s.cpu.phase ≠ .exiting)
    (zombie : (s.procs slot).state = .zombie) :
    Consistent { s with procs := Function.update s.procs slot { s.procs slot with used := false } } events := by
  have running := (runnable_used (inv.live here).2).2
  have other : slot ≠ s.currentIdx := by
    rintro rfl
    rw [running] at zombie
    cases zombie
  refine inv.table here (by simp [Ne.symm other]) fun q _ runs => ?_
  left
  by_cases reaped : q = slot
  · subst reaped
    simp [Proc.runnable] at runs
  · simp [reaped]

theorem Consistent.exit (inv : Consistent s events) :
    Consistent { s.goto .exiting true with
      procs := Function.update s.procs s.currentIdx { s.procs s.currentIdx with state := .zombie } } events := by
  -- the process that exits is not ready any more, the others are as they were
  have others : ∀ q, Live { s.goto .exiting true with
      procs := Function.update s.procs s.currentIdx { s.procs s.currentIdx with state := .zombie } } q →
      q ≠ s.currentIdx ∧ Live s q := by
    intro q live
    have other : q ≠ s.currentIdx := by
      rintro rfl
      simp [Live, Proc.runnable] at live
    refine ⟨other, live.1, ?_⟩
    have := live.2
    simpa [other] using this
  refine ⟨inv.slot, fun q live => ?_, fun q live => ?_, fun _ => rfl⟩
  · obtain ⟨other, alive⟩ := others q live
    have := inv.own q alive
    rw [ctx_other other] at this
    rw [ctx_other (by exact other)]
    simpa [other] using this
  · obtain ⟨other, alive⟩ := others q live
    have := inv.holds q alive
    rw [ctx_other other] at this
    rw [ctx_other (by exact other)]
    simp only [Function.update_of_ne other]
    exact this

theorem consistent_next {t : Sys} {move : Move} (inv : Consistent s events) (allowed : Undisturbed s move)
    (step : next s move = some t) : Consistent t ((move.event s).toList ++ events) := by
  have call := inv.cpu
  cases move with
  | syscall num rsp =>
      cases phase : s.cpu.phase with
      | user =>
          simp only [next, phase, Option.some.injEq] at step
          subst step
          exact inv.syscall phase allowed
      | _ => simp [next, phase] at step
  | yield =>
      cases phase : s.cpu.phase with
      | handler num =>
          simp only [next, phase, Option.ite_none_right_eq_some, Option.some.injEq] at step
          obtain ⟨_, rfl⟩ := step
          rw [phase] at call
          exact (inv.goto (by rw [phase]; exact nofun) (fun _ _ => rfl) (call nofun)).schedIrqReturn
      | _ => simp [next, phase] at step
  | fault =>
      cases phase : s.cpu.phase with
      | handler num =>
          simp only [next, phase, Option.some.injEq] at step
          subst step
          exact inv.schedIrqReturn
      | _ => simp [next, phase] at step
  | tick =>
      simp only [next, Option.ite_none_right_eq_some, Option.some.injEq] at step
      obtain ⟨_, rfl⟩ := step
      exact inv.schedIrqReturn
  | handlerReturn value =>
      cases phase : s.cpu.phase with
      | handler num =>
          simp only [next, phase, Option.ite_none_right_eq_some, Option.some.injEq] at step
          obtain ⟨_, rfl⟩ := step
          have here : s.cpu.phase ≠ .exiting := by rw [phase]; exact nofun
          have entered : lastCall s.currentIdx events = .entered s.userRspSave := by
            have := call here
            rwa [phase] at this
          refine inv.goto here (fun q other => ?_) ?_
          · simp [Move.event, lastCall, inv.who here, Ne.symm other]
          · simp [Move.event, lastCall, inv.who here, entered, Holds, Call.value]
      | _ => simp [next, phase] at step
  | fork pid =>
      cases phase : s.cpu.phase with
      | handler num =>
          cases slot : slotAlloc s.procs with
          | none => simp [next, phase, slot] at step
          | some idx =>
              simp only [next, phase, slot, Option.ite_none_right_eq_some, Option.some.injEq] at step
              obtain ⟨_, rfl⟩ := step
              exact inv.fork (by rw [phase]; exact nofun) slot rfl
      | _ => simp [next, phase] at step
  | reap slot =>
      cases phase : s.cpu.phase with
      | handler num =>
          simp only [next, phase, Option.ite_none_right_eq_some, Option.some.injEq] at step
          obtain ⟨⟨_, _, _, zombie, _⟩, rfl⟩ := step
          exact inv.reap (by rw [phase]; exact nofun) zombie
      | _ => simp [next, phase] at step
  | exec =>
      cases phase : s.cpu.phase with
      | handler num =>
          simp only [next, phase, Option.ite_none_right_eq_some, Option.some.injEq] at step
          obtain ⟨_, rfl⟩ := step
          exact inv.goto (by rw [phase]; exact nofun) (fun _ _ => rfl) trivial
      | _ => simp [next, phase] at step
  | exit =>
      cases phase : s.cpu.phase with
      | handler num =>
          simp only [next, phase, Option.ite_none_right_eq_some, Option.some.injEq] at step
          obtain ⟨_, rfl⟩ := step
          exact inv.exit
      | _ => simp [next, phase] at step
  | store =>
      cases phase : s.cpu.phase with
      | returned rax =>
          simp only [next, phase, Option.some.injEq] at step
          subst step
          exact inv.store phase allowed
      | _ => simp [next, phase] at step
  | load =>
      cases phase : s.cpu.phase with
      | stored =>
          simp only [next, phase, Option.some.injEq] at step
          subst step
          rw [phase] at call
          exact inv.goto (by rw [phase]; exact nofun) (fun _ _ => rfl) (call nofun)
      | _ => simp [next, phase] at step
  | switchStack =>
      cases phase : s.cpu.phase with
      | loaded rax =>
          simp only [next, phase, Option.some.injEq] at step
          subst step
          rw [phase] at call
          exact inv.goto (by rw [phase]; exact nofun) (fun _ _ => rfl) (call nofun)
      | _ => simp [next, phase] at step
  | sysret =>
      cases phase : s.cpu.phase with
      | switched rax rsp =>
          simp only [next, phase, Option.some.injEq] at step
          subst step
          have here : s.cpu.phase ≠ .exiting := by rw [phase]; exact nofun
          refine inv.goto here (fun q other => ?_) trivial
          simp [Move.event, phase, lastCall, inv.who here, Ne.symm other]
      | _ => simp [next, phase] at step

theorem ownReturns_next {move : Move} (inv : Consistent s events) (own : OwnReturns events) :
    OwnReturns ((move.event s).toList ++ events) := by
  cases move with
  | sysret =>
      cases phase : s.cpu.phase with
      | switched rax rsp =>
          have here : s.cpu.phase ≠ .exiting := by rw [phase]; exact nofun
          have call := inv.cpu here
          rw [phase] at call
          simp only [Move.event, phase, Option.toList_some, List.singleton_append, OwnReturns, inv.who here]
          exact ⟨call, own⟩
      | _ => simpa [Move.event, phase] using own
  | _ => exact own

end Moves

theorem run_consistent {s t : Sys} {events : List Event} (start : Start s) (run : Run Undisturbed s events t) :
    Consistent t events ∧ OwnReturns events := by
  induction run with
  | start => exact ⟨consistent_start start, trivial⟩
  | step before allowed step ih =>
      obtain ⟨inv, own⟩ := ih
      exact ⟨consistent_next inv allowed step, ownReturns_next inv own⟩

/-- In a run in which no process overwrites a variable that another one has still to load, every process returns from its
call with the stack pointer it entered with and the value of its own handler. -/
theorem returns_own {s t : Sys} {events : List Event} (start : Start s) (run : Run Undisturbed s events t) :
    OwnReturns events := (run_consistent start run).2

/-- Two processes in user mode, the first one running. -/
def twoUsers : Sys where
  procs q := ⟨decide (q < 2), q + 1, .ready, 1, ⟨q, .user, true⟩⟩
  currentIdx := 0
  cpu := ⟨0, .user, true⟩
  userRspSave := 0
  retvalSave := 0

theorem start_twoUsers : Start twoUsers := ⟨by decide, by decide, rfl, fun _ _ => rfl⟩

def runMoves (s : Sys) (events : List Event) : List Move → Option (List Event × Sys)
  | [] => some (events, s)
  | move :: rest => match next s move with
      | some t => runMoves t ((move.event s).toList ++ events) rest
      | none => none

theorem run_runMoves {s t u : Sys} {events events' : List Event} {moves : List Move}
    (before : Run (fun _ _ => True) s events t) (run : runMoves t events moves = some (events', u)) :
    Run (fun _ _ => True) s events' u := by
  induction moves generalizing t events with
  | nil =>
      cases run
      exact before
  | cons move rest ih =>
      unfold runMoves at run
      split at run
      · next step => exact ih (before.step trivial step) run
      · cases run

/-- The stub after the handler has computed a value. -/
def leave (value : UInt64) : List Move := [.handlerReturn value, .store, .load, .switchStack, .sysret]

theorem undisturbed_user {s : Sys} {move : Move} (users : ∀ q, q ≠ s.currentIdx → (s.procs q).frame.phase = .user) :
    Undisturbed s move := by
  cases move with
  | syscall num rsp =>
      intro q other _ inside
      rw [users q other] at inside
      exact inside.elim
  | store =>
      intro q other _ stored
      rw [users q other] at stored
      cases stored
  | _ => trivial

theorem returns_own_alone : OwnReturns [.returned 0 0x1000 7, .computed 0 7, .entered 0 0x1000] := by
  have users : ∀ q, q ≠ twoUsers.currentIdx → (twoUsers.procs q).frame.phase = .user := fun _ _ => rfl
  have run₁ := @Run.step Undisturbed twoUsers _ _ _ (.syscall 4 0x1000) .start (undisturbed_user users) rfl
  have run₂ := @Run.step Undisturbed twoUsers _ _ _ (.handlerReturn 7) run₁ (undisturbed_user users) rfl
  have run₃ := @Run.step Undisturbed twoUsers _ _ _ .store run₂ (undisturbed_user users) rfl
  have run₄ := @Run.step Undisturbed twoUsers _ _ _ .load run₃ (undisturbed_user users) rfl
  have run₅ := @Run.step Undisturbed twoUsers _ _ _ .switchStack run₄ (undisturbed_user users) rfl
  have run₆ := @Run.step Undisturbed twoUsers _ _ _ .sysret run₅ (undisturbed_user users) rfl
  exact returns_own start_twoUsers run₆

/-- The first process waits in `SC_YIELD` while the second one makes a call: it returns with the stack of the second. -/
theorem returns_disturbed :
    ∃ events t, Start twoUsers ∧ Run (fun _ _ => True) twoUsers events t ∧ .returned 0 0x2000 0 ∈ events ∧
      ¬OwnReturns events := by
  have run : ∃ t, runMoves twoUsers []
      ([.syscall 2 0x1000, .yield, .syscall 1 0x2000] ++ leave 0 ++ [.tick] ++ leave 0) =
      some ([.returned 0 0x2000 0, .computed 0 0, .returned 1 0x2000 0, .computed 1 0, .entered 1 0x2000,
        .entered 0 0x1000], t) := ⟨_, rfl⟩
  obtain ⟨t, run⟩ := run
  refine ⟨_, t, start_twoUsers, run_runMoves .start run, by decide, ?_⟩
  rintro ⟨own, _⟩
  exact absurd own (by decide)

end SwiftBSD.Proof.Sched
