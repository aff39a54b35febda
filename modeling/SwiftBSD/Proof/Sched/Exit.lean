import SwiftBSD.Proof.Sched.Table

namespace SwiftBSD.Proof.Sched
open Lib SwiftBSD.Mm SwiftBSD.Sched SwiftBSD.Proof.Mm

structure Slot where
  used : Bool
  pid : Int32
  state : ProcState
  parent : Int32
  exitCode : Int32

def births (events : List ExitEvent) : Nat := events.countP fun
  | .forked _ _ => true
  | _ => false

def isExit (pid : Int32) : ExitEvent → Bool
  | .exited _ p _ => p == pid
  | _ => false

def isReturn (pid : Int32) : ExitEvent → Bool
  | .returned _ p _ => p == pid
  | _ => false

section Invariant
variable (events : List ExitEvent) (slots : Nat → Slot)

/-- A process that has exited and is still in its slot. -/
structure Kept (i : Nat) (pid code : Int32) : Prop where
  small : i < maxProcs
  used : (slots i).used = true
  pid : (slots i).pid = pid
  state : (slots i).state = .zombie
  code : (slots i).exitCode = code

/-- The call of `m` has freed the slot of its child, and is about to return. -/
structure InHand (m pid code : Int32) : Prop where
  exited : ∃ i, .exited i pid code ∈ events
  forked : .forked m pid ∈ events
  gone : ∀ i < maxProcs, (slots i).used = true → (slots i).pid ≠ pid
  open_ : ∀ q c, .returned q pid c ∉ events

structure ChildZombie (m : Int32) (i : Nat) : Prop where
  small : i < maxProcs
  used : (slots i).used = true
  state : (slots i).state = .zombie
  parent : (slots i).parent = m

/-- What a call of the process `m` may rely on. A slot that it has found in use may have been freed since, but not if it is that of
a child. -/
def PointOk (m : Int32) : WaitPoint → Prop
  | .state i => i < maxProcs ∧ ((slots i).parent = m → (slots i).used = true)
  | .parent i => i < maxProcs ∧ ((slots i).parent = m → (slots i).used = true ∧ (slots i).state = .zombie)
  | .pid i => ChildZombie slots m i
  | .code i pid => ChildZombie slots m i ∧ (slots i).pid = pid
  | .release i pid code => ChildZombie slots m i ∧ (slots i).pid = pid ∧ (slots i).exitCode = code
  | .count pid code => InHand events slots m pid code
  | _ => True

structure CallOk (j : Nat) (c : WaitCall) : Prop where
  small : j < maxProcs
  used : (slots j).used = true
  ready : (slots j).state = .ready
  pid : (slots j).pid = c.myPid
  point : PointOk events slots c.myPid c.point

variable (calls : Nat → Option WaitCall) (next : Int)

structure Delivery : Prop where
  below : ∀ i < maxProcs, (slots i).used = true → 0 < (slots i).pid.toInt ∧ (slots i).pid.toInt < next
  distinct : ∀ i < maxProcs, ∀ j < maxProcs, (slots i).used = true → (slots j).used = true → (slots i).pid = (slots j).pid → i = j
  state : ∀ i < maxProcs, (slots i).used = true → (slots i).state = .ready ∨ (slots i).state = .zombie
  parent : ∀ i < maxProcs, (slots i).used = true →
    (slots i).pid = 1 ∧ (slots i).parent = 1 ∨ .forked (slots i).parent (slots i).pid ∈ events
  zombie : ∀ i < maxProcs, (slots i).used = true → (slots i).state = .zombie → .exited i (slots i).pid (slots i).exitCode ∈ events
  living : ∀ i < maxProcs, (slots i).used = true → (slots i).state = .ready → ∀ j c, .exited j (slots i).pid c ∉ events
  forks : ∀ q p, .forked q p ∈ events → 1 < p.toInt ∧ p.toInt < next
  creator : ∀ q q' p, .forked q p ∈ events → .forked q' p ∈ events → q = q'
  exits : ∀ i p c, .exited i p c ∈ events → p.toInt < next ∧
    (Kept slots i p c ∨ (∃ j m, calls j = some ⟨m, .count p c⟩) ∨ ∃ q, .returned q p c ∈ events)
  returns : ∀ q p c, .returned q p c ∈ events →
    (∃ i, .exited i p c ∈ events) ∧ .forked q p ∈ events ∧ ∀ i < maxProcs, (slots i).used = true → (slots i).pid ≠ p
  exitOnce : ∀ p, events.countP (isExit p) ≤ 1
  returnOnce : ∀ p, events.countP (isReturn p) ≤ 1
  callOk : ∀ j c, calls j = some c → CallOk events slots j c

end Invariant

section Steps
variable {events : List ExitEvent} {slots slots' : Nat → Slot} {calls : Nat → Option WaitCall} {next : Int} {cur idx : Nat}
  {m pid code : Int32} {c : WaitCall}

theorem PointOk.mono {more : List ExitEvent} {point : WaitPoint} (ok : PointOk events slots m point)
    (kept : ∀ p, (∀ q c, .returned q p c ∉ events) → (∃ c, point = .count p c) → ∀ q c, .returned q p c ∉ more)
    (grows : ∀ e ∈ events, e ∈ more) : PointOk more slots m point := by
  cases point with
  | count p c =>
      obtain ⟨i, exited⟩ := ok.exited
      exact ⟨⟨i, grows _ exited⟩, grows _ ok.forked, ok.gone, kept p ok.open_ ⟨c, rfl⟩⟩
  | used _ | state _ | parent _ | pid _ | code _ _ | release _ _ _ | childUsed _ | childParent _ | yields => exact ok

theorem PointOk.others {point : WaitPoint} (ok : PointOk events slots m point) (same : ∀ i, i ≠ idx → slots' i = slots i)
    (fresh : (slots idx).used = true → (slots' idx).used = true → (slots' idx).pid = (slots idx).pid)
    (child : (slots' idx).parent = m → (slots idx).parent = m ∧ ((slots idx).used = true → (slots' idx).used = true) ∧
      ((slots idx).state = .zombie → slots' idx = slots idx))
    (mine : (slots idx).parent = m → (slots idx).state = .zombie → (slots idx).used = true → slots' idx = slots idx)
    (number : ∀ p, .forked m p ∈ events → (slots idx).used = false → (slots' idx).used = true → (slots' idx).pid ≠ p) :
    PointOk events slots' m point := by
  have zombie {i : Nat} (here : ChildZombie slots m i) : slots' i = slots i := by
    by_cases at_ : i = idx
    · subst at_
      exact mine here.parent here.state here.used
    · exact same i at_
  have move {i : Nat} (here : ChildZombie slots m i) : ChildZombie slots' m i := by
    have equal := zombie here
    exact ⟨here.small, by rw [equal, here.used], by rw [equal, here.state], by rw [equal, here.parent]⟩
  cases point with
  | used _ | childUsed _ | childParent _ | yields => trivial
  | state i =>
      refine ⟨ok.1, fun parent => ?_⟩
      by_cases at_ : i = idx
      · subst at_
        obtain ⟨before, used, -⟩ := child parent
        exact used (ok.2 before)
      · rw [same i at_] at parent ⊢
        exact ok.2 parent
  | parent i =>
      refine ⟨ok.1, fun parent => ?_⟩
      by_cases at_ : i = idx
      · subst at_
        obtain ⟨before, -, equal⟩ := child parent
        obtain ⟨used, state⟩ := ok.2 before
        rw [equal state]
        exact ⟨used, state⟩
      · rw [same i at_] at parent ⊢
        exact ok.2 parent
  | pid i => exact move ok
  | code i p => exact ⟨move ok.1, by rw [zombie ok.1, ok.2]⟩
  | release i p c => exact ⟨move ok.1, by rw [zombie ok.1, ok.2.1], by rw [zombie ok.1, ok.2.2]⟩
  | count p c =>
      refine ⟨ok.exited, ok.forked, fun i small used => ?_, ok.open_⟩
      by_cases at_ : i = idx
      · subst at_
        by_cases before : (slots i).used = true
        · rw [fresh before used]
          exact ok.gone i small before
        · exact number p ok.forked (by simpa using before) used
      · rw [same i at_] at used ⊢
        exact ok.gone i small used

theorem Kept.others (kept : Kept slots idx pid code) (same : slots' idx = slots idx) : Kept slots' idx pid code := by
  obtain ⟨small, used, named, state, value⟩ := kept
  exact ⟨small, by rw [same, used], by rw [same, named], by rw [same, state], by rw [same, value]⟩

theorem isExit_iff {p : Int32} {e : ExitEvent} : isExit p e = true ↔ ∃ i c, e = .exited i p c := by
  cases e with
  | exited i q c =>
      simp only [isExit, beq_iff_eq, ExitEvent.exited.injEq]
      constructor
      · rintro rfl
        exact ⟨i, c, rfl, rfl, rfl⟩
      · rintro ⟨_, _, -, same, -⟩
        exact same
  | forked _ _ | returned _ _ _ => simp [isExit]

theorem isReturn_iff {p : Int32} {e : ExitEvent} : isReturn p e = true ↔ ∃ q c, e = .returned q p c := by
  cases e with
  | returned q r c =>
      simp only [isReturn, beq_iff_eq, ExitEvent.returned.injEq]
      constructor
      · rintro rfl
        exact ⟨q, c, rfl, rfl, rfl⟩
      · rintro ⟨_, _, -, same, -⟩
        exact same
  | forked _ _ | exited _ _ _ => simp [isReturn]

theorem countP_snoc {p : ExitEvent → Bool} {e : ExitEvent} (before : events.countP p ≤ 1) (first : p e = true → ∀ e' ∈ events, p e' = false) :
    (events ++ [e]).countP p ≤ 1 := by
  rw [List.countP_append, List.countP_singleton]
  split
  · next here =>
      have none : events.countP p = 0 := List.countP_eq_zero.mpr fun e' member => by rw [first here e' member]; decide
      omega
  · omega

theorem countP_forked {p : ExitEvent → Bool} {q r : Int32} (other : p (.forked q r) = false) :
    List.countP p (events ++ [.forked q r]) = events.countP p := by
  rw [List.countP_append, List.countP_singleton, other]
  rfl

theorem Delivery.fork (d : Delivery events slots calls next) (idle : calls cur = none) (small : idx < maxProcs)
    (running : cur < maxProcs) (live : (slots cur).used = true) (free : (slots idx).used = false) (same : ∀ i, i ≠ idx → slots' i = slots i) (used : (slots' idx).used = true)
    (ready : (slots' idx).state = .ready) (parent : (slots' idx).parent = (slots cur).pid) (number : (slots' idx).pid.toInt = next)
    (more : 1 < next) : Delivery (events ++ [.forked (slots cur).pid (slots' idx).pid]) slots' calls (next + 1) := by
  have old {e : ExitEvent} (member : e ∈ events) : e ∈ events ++ [.forked (slots cur).pid (slots' idx).pid] :=
    List.mem_append_left _ member
  have member {e : ExitEvent} (here : e ∈ events ++ [.forked (slots cur).pid (slots' idx).pid]) :
      e ∈ events ∨ e = .forked (slots cur).pid (slots' idx).pid := by
    rwa [List.mem_append, List.mem_singleton] at here
  have slot (i : Nat) (live : (slots' i).used = true) : i = idx ∨ i ≠ idx ∧ slots' i = slots i ∧ (slots i).used = true := by
    by_cases here : i = idx
    · exact .inl here
    · exact .inr ⟨here, same i here, by rw [← same i here, live]⟩
  have fresh {p : Int32} (below : p.toInt < next) : (slots' idx).pid ≠ p := by
    rintro rfl
    omega
  refine ⟨?_, ?_, ?_, ?_, ?_, ?_, ?_, ?_, ?_, ?_, ?_, ?_, ?_⟩
  · intro i hi live
    rcases slot i live with rfl | ⟨-, equal, before⟩
    · omega
    · rw [equal]
      have := d.below i hi before
      omega
  · intro i hi j hj liveI liveJ equal
    rcases slot i liveI with hereI | ⟨-, equalI, beforeI⟩ <;> rcases slot j liveJ with hereJ | ⟨-, equalJ, beforeJ⟩
    · rw [hereI, hereJ]
    · rw [hereI, equalJ] at equal
      exact (fresh (d.below j hj beforeJ).2 equal).elim
    · rw [hereJ, equalI] at equal
      exact (fresh (d.below i hi beforeI).2 equal.symm).elim
    · rw [equalI, equalJ] at equal
      exact d.distinct i hi j hj beforeI beforeJ equal
  · intro i hi live
    rcases slot i live with rfl | ⟨-, equal, before⟩
    · exact .inl ready
    · rw [equal]
      exact d.state i hi before
  · intro i hi live
    rcases slot i live with rfl | ⟨-, equal, before⟩
    · right
      rw [parent]
      exact List.mem_append_right _ (List.mem_singleton.mpr rfl)
    · rw [equal]
      exact (d.parent i hi before).imp_right old
  · intro i hi live state
    rcases slot i live with rfl | ⟨-, equal, before⟩
    · rw [ready] at state
      cases state
    · rw [equal] at state ⊢
      exact old (d.zombie i hi before state)
  · intro i hi live state j c here
    rcases member here with earlier | now
    swap
    · cases now
    rcases slot i live with rfl | ⟨-, equal, before⟩
    · exact fresh (d.exits _ _ _ earlier).1 rfl
    · rw [equal] at state earlier
      exact d.living i hi before state _ _ earlier
  · intro q p here
    rcases member here with earlier | now
    · have := d.forks q p earlier
      omega
    · cases now
      omega
  · intro q q' p here there
    rcases member here with first | first <;> rcases member there with second | second
    · exact d.creator q q' p first second
    · cases second
      exact (fresh (d.forks _ _ first).2 rfl).elim
    · cases first
      exact (fresh (d.forks _ _ second).2 rfl).elim
    · cases first
      cases second
      rfl
  · intro i p c here
    rcases member here with earlier | now
    swap
    · cases now
    obtain ⟨below, place⟩ := d.exits i p c earlier
    refine ⟨by omega, ?_⟩
    rcases place with kept | hand | ⟨q, returned⟩
    · refine .inl (kept.others (same i ?_))
      rintro rfl
      rw [kept.used] at free
      cases free
    · exact .inr (.inl hand)
    · exact .inr (.inr ⟨q, old returned⟩)
  · intro q p c here
    rcases member here with earlier | now
    swap
    · cases now
    obtain ⟨⟨i, exited⟩, forked, gone⟩ := d.returns q p c earlier
    refine ⟨⟨i, old exited⟩, old forked, fun j hj live => ?_⟩
    rcases slot j live with rfl | ⟨-, equal, before⟩
    · exact fresh (d.forks _ _ forked).2
    · rw [equal]
      exact gone j hj before
  · intro q
    rw [countP_forked (p := isExit q) rfl]
    exact d.exitOnce q
  · intro q
    rw [countP_forked (p := isReturn q) rfl]
    exact d.returnOnce q
  · intro j c here
    obtain ⟨hj, usedJ, readyJ, named, point⟩ := d.callOk j c here
    have apart : j ≠ idx := by
      rintro rfl
      rw [usedJ] at free
      cases free
    have other : c.myPid ≠ (slots cur).pid := by
      intro equal
      have := d.distinct j hj cur running usedJ live (named.trans equal)
      subst this
      rw [idle] at here
      cases here
    refine ⟨hj, by rw [same j apart, usedJ], by rw [same j apart, readyJ], by rw [same j apart, named], ?_⟩
    have moved : PointOk events slots' c.myPid c.point := by
      refine point.others same (fun before => ?_) (fun child => ?_) (fun _ _ before => ?_) (fun p forked _ _ => ?_)
      · rw [free] at before
        cases before
      · rw [parent] at child
        exact (other child.symm).elim
      · rw [free] at before
        cases before
      · exact fresh (d.forks _ _ forked).2
    refine moved.mono (fun p none _ q c' here => ?_) fun e => old
    rcases member here with earlier | now
    · exact none q c' earlier
    · cases now

theorem Delivery.exit (d : Delivery events slots calls next) (idle : calls cur = none) (running : cur < maxProcs)
    (live : (slots cur).used = true) (ready : (slots cur).state = .ready)
    (hslots : slots' = Function.update slots cur { slots cur with state := .zombie, exitCode := code }) :
    Delivery (events ++ [.exited cur (slots cur).pid code]) slots' calls next := by
  have same (i : Nat) (other : i ≠ cur) : slots' i = slots i := by rw [hslots, Function.update_of_ne other]
  have here : slots' cur = { slots cur with state := .zombie, exitCode := code } := by rw [hslots, Function.update_self]
  have used (i : Nat) : (slots' i).used = (slots i).used := by
    by_cases at_ : i = cur
    · rw [at_, here]
    · rw [same i at_]
  have named (i : Nat) : (slots' i).pid = (slots i).pid := by
    by_cases at_ : i = cur
    · rw [at_, here]
    · rw [same i at_]
  have child (i : Nat) : (slots' i).parent = (slots i).parent := by
    by_cases at_ : i = cur
    · rw [at_, here]
    · rw [same i at_]
  have old {e : ExitEvent} (member : e ∈ events) : e ∈ events ++ [.exited cur (slots cur).pid code] := List.mem_append_left _ member
  have member {e : ExitEvent} (here : e ∈ events ++ [.exited cur (slots cur).pid code]) :
      e ∈ events ∨ e = .exited cur (slots cur).pid code := by
    rwa [List.mem_append, List.mem_singleton] at here
  have alive := d.living cur running live ready
  refine ⟨?_, ?_, ?_, ?_, ?_, ?_, ?_, ?_, ?_, ?_, ?_, ?_, ?_⟩
  · intro i hi before
    rw [used] at before
    rw [named]
    exact d.below i hi before
  · intro i hi j hj beforeI beforeJ equal
    rw [used] at beforeI beforeJ
    rw [named, named] at equal
    exact d.distinct i hi j hj beforeI beforeJ equal
  · intro i hi before
    rw [used] at before
    by_cases at_ : i = cur
    · rw [at_, here]
      exact .inr rfl
    · rw [same i at_]
      exact d.state i hi before
  · intro i hi before
    rw [used] at before
    rw [named, child]
    exact (d.parent i hi before).imp_right old
  · intro i hi before state
    rw [used] at before
    by_cases at_ : i = cur
    · rw [at_, here]
      exact List.mem_append_right _ (List.mem_singleton.mpr rfl)
    · rw [same i at_] at state ⊢
      exact old (d.zombie i hi before state)
  · intro i hi before state j c now
    rw [used] at before
    by_cases at_ : i = cur
    · rw [at_, here] at state
      cases state
    · rw [same i at_] at state now
      rcases member now with earlier | equal
      · exact d.living i hi before state j c earlier
      · exact at_ (d.distinct i hi cur running before live (ExitEvent.exited.inj equal).2.1)
  · intro q p now
    rcases member now with earlier | equal
    · exact d.forks q p earlier
    · cases equal
  · intro q q' p first second
    rcases member first with first | equal
    swap
    · cases equal
    rcases member second with second | equal
    swap
    · cases equal
    exact d.creator q q' p first second
  · intro i p c now
    rcases member now with earlier | equal
    · obtain ⟨below, place⟩ := d.exits i p c earlier
      refine ⟨below, ?_⟩
      rcases place with kept | hand | ⟨q, returned⟩
      · refine .inl (kept.others (same i ?_))
        rintro rfl
        have zombie := kept.state
        rw [ready] at zombie
        cases zombie
      · exact .inr (.inl hand)
      · exact .inr (.inr ⟨q, old returned⟩)
    · cases equal
      exact ⟨(d.below cur running live).2, .inl ⟨running, by rw [used, live], named cur, by rw [here], by rw [here]⟩⟩
  · intro q p c now
    rcases member now with earlier | equal
    swap
    · cases equal
    obtain ⟨⟨i, exited⟩, forked, gone⟩ := d.returns q p c earlier
    refine ⟨⟨i, old exited⟩, old forked, fun j hj before => ?_⟩
    rw [used] at before
    rw [named]
    exact gone j hj before
  · intro p
    refine countP_snoc (d.exitOnce p) fun equal e earlier => ?_
    obtain rfl : (slots cur).pid = p := by simpa [isExit] using equal
    rw [Bool.eq_false_iff]
    intro exit
    obtain ⟨i, c, rfl⟩ := isExit_iff.mp exit
    exact alive i c earlier
  · intro p
    exact countP_snoc (d.returnOnce p) fun equal => by cases equal
  · intro j c now
    obtain ⟨hj, usedJ, readyJ, namedJ, point⟩ := d.callOk j c now
    have apart : j ≠ cur := by
      rintro rfl
      rw [idle] at now
      cases now
    refine ⟨hj, by rw [same j apart, usedJ], by rw [same j apart, readyJ], by rw [same j apart, namedJ], ?_⟩
    have moved : PointOk events slots' c.myPid c.point := by
      refine point.others same (fun _ _ => named cur) (fun parent => ?_) (fun _ zombie _ => ?_) (fun p _ before _ => ?_)
      · rw [child] at parent
        refine ⟨parent, fun before => by rw [used, before], fun zombie => ?_⟩
        rw [ready] at zombie
        cases zombie
      · rw [ready] at zombie
        cases zombie
      · rw [live] at before
        cases before
    refine moved.mono (fun p none _ q c' there => ?_) fun e => old
    rcases member there with earlier | equal
    · exact none q c' earlier
    · cases equal

theorem Delivery.goes {call : Option WaitCall} (d : Delivery events slots calls next)
    (before : ∀ m p c, calls cur ≠ some ⟨m, .count p c⟩) (after : ∀ c, call = some c → CallOk events slots cur c) :
    Delivery events slots (Function.update calls cur call) next := by
  refine { d with exits := fun i p c here => ?_, callOk := fun j c here => ?_ }
  · obtain ⟨below, place⟩ := d.exits i p c here
    refine ⟨below, place.imp_right (.imp_left ?_)⟩
    rintro ⟨j, m, hand⟩
    refine ⟨j, m, ?_⟩
    rw [Function.update_of_ne, hand]
    rintro rfl
    exact before m p c hand
  · rw [Function.update_apply] at here
    split at here
    · next at_ =>
        rw [at_]
        exact after c here
    · exact d.callOk j c here

theorem Delivery.release (d : Delivery events slots calls next) (call : calls cur = some ⟨m, .release idx pid code⟩)
    (hslots : slots' = Function.update slots idx { slots idx with used := false }) :
    Delivery events slots' (Function.update calls cur (some ⟨m, .count pid code⟩)) next := by
  obtain ⟨running, live, ready, mine, ⟨small, used, zombie, parent⟩, named, value⟩ := d.callOk cur _ call
  dsimp only at mine
  have same (i : Nat) (other : i ≠ idx) : slots' i = slots i := by rw [hslots, Function.update_of_ne other]
  have here : slots' idx = { slots idx with used := false } := by rw [hslots, Function.update_self]
  have still (i : Nat) (now : (slots' i).used = true) : i ≠ idx ∧ slots' i = slots i ∧ (slots i).used = true := by
    have other : i ≠ idx := by
      rintro rfl
      rw [here] at now
      cases now
    exact ⟨other, same i other, by rw [← same i other, now]⟩
  have gone (i : Nat) (hi : i < maxProcs) (now : (slots' i).used = true) : (slots' i).pid ≠ pid := by
    obtain ⟨other, equal, before⟩ := still i now
    rw [equal]
    exact fun number => other (d.distinct i hi idx small before used (number.trans named.symm))
  have exited : .exited idx pid code ∈ events := by
    have := d.zombie idx small used zombie
    rwa [named, value] at this
  have forked : .forked m pid ∈ events := by
    rcases d.parent idx small used with ⟨first, init⟩ | forked
    · -- the first process is its own parent, but it has not exited
      have one : m = 1 := parent.symm.trans init
      have equal : cur = idx := d.distinct cur running idx small live used (by rw [mine, one, first])
      subst equal
      rw [ready] at zombie
      cases zombie
    · rwa [parent, named] at forked
  have unreturned (q c : Int32) : .returned q pid c ∉ events := fun returned =>
    (d.returns q pid c returned).2.2 idx small used named
  have apart : cur ≠ idx := by
    rintro rfl
    rw [ready] at zombie
    cases zombie
  refine ⟨?_, ?_, ?_, ?_, ?_, ?_, d.forks, d.creator, ?_, ?_, d.exitOnce, d.returnOnce, ?_⟩
  · intro i hi now
    obtain ⟨-, equal, before⟩ := still i now
    rw [equal]
    exact d.below i hi before
  · intro i hi j hj nowI nowJ number
    obtain ⟨-, equalI, beforeI⟩ := still i nowI
    obtain ⟨-, equalJ, beforeJ⟩ := still j nowJ
    rw [equalI, equalJ] at number
    exact d.distinct i hi j hj beforeI beforeJ number
  · intro i hi now
    obtain ⟨-, equal, before⟩ := still i now
    rw [equal]
    exact d.state i hi before
  · intro i hi now
    obtain ⟨-, equal, before⟩ := still i now
    rw [equal]
    exact d.parent i hi before
  · intro i hi now
    obtain ⟨-, equal, before⟩ := still i now
    rw [equal]
    exact d.zombie i hi before
  · intro i hi now
    obtain ⟨-, equal, before⟩ := still i now
    rw [equal]
    exact d.living i hi before
  · intro i p c exit
    obtain ⟨below, place⟩ := d.exits i p c exit
    refine ⟨below, ?_⟩
    rcases place with kept | ⟨j, m', hand⟩ | returned
    · by_cases at_ : i = idx
      · subst at_
        obtain rfl : pid = p := named.symm.trans kept.pid
        obtain rfl : code = c := value.symm.trans kept.code
        exact .inr (.inl ⟨cur, m, Function.update_self _ _ _⟩)
      · exact .inl (kept.others (same i at_))
    · refine .inr (.inl ⟨j, m', ?_⟩)
      rw [Function.update_of_ne, hand]
      rintro rfl
      rw [call] at hand
      cases hand
    · exact .inr (.inr returned)
  · intro q p c returned
    obtain ⟨exit, fork, none⟩ := d.returns q p c returned
    refine ⟨exit, fork, fun i hi now => ?_⟩
    obtain ⟨-, equal, before⟩ := still i now
    rw [equal]
    exact none i hi before
  · intro j c now
    rw [Function.update_apply] at now
    split at now
    · next at_ =>
        subst at_
        cases now
        exact ⟨running, by rw [same j apart, live], by rw [same j apart, ready], by rw [same j apart, mine],
          ⟨idx, exited⟩, forked, gone, unreturned⟩
    · next at_ =>
        obtain ⟨hj, usedJ, readyJ, namedJ, point⟩ := d.callOk j c now
        have other : j ≠ idx := by
          rintro rfl
          rw [readyJ] at zombie
          cases zombie
        have stranger : (slots idx).parent ≠ c.myPid := by
          intro equal
          exact at_ (d.distinct j hj cur running usedJ live (by rw [namedJ, mine, ← equal, parent]))
        refine ⟨hj, by rw [same j other, usedJ], by rw [same j other, readyJ], by rw [same j other, namedJ], ?_⟩
        refine point.others same (fun _ now => ?_) (fun child => ?_) (fun child _ _ => (stranger child).elim) (fun p _ before _ => ?_)
        · rw [here] at now
          cases now
        · rw [here] at child
          exact (stranger child).elim
        · rw [used] at before
          cases before

theorem Delivery.reaps (d : Delivery events slots calls next) (call : calls cur = some ⟨m, .count pid code⟩) :
    Delivery (events ++ [.returned m pid code]) slots (Function.update calls cur none) next := by
  obtain ⟨running, live, ready, mine, ⟨exited, exit⟩, forked, gone, unreturned⟩ := d.callOk cur _ call
  dsimp only at mine
  have old {e : ExitEvent} (member : e ∈ events) : e ∈ events ++ [.returned m pid code] := List.mem_append_left _ member
  have member {e : ExitEvent} (here : e ∈ events ++ [.returned m pid code]) : e ∈ events ∨ e = .returned m pid code := by
    rwa [List.mem_append, List.mem_singleton] at here
  have earlier {e : ExitEvent} (here : e ∈ events ++ [.returned m pid code]) (other : ∀ q p c, e ≠ .returned q p c) : e ∈ events :=
    (member here).resolve_right (other _ _ _)
  refine ⟨d.below, d.distinct, d.state, fun i hi now => (d.parent i hi now).imp_right old, fun i hi now state => old (d.zombie i hi now state),
    fun i hi now state j c here => d.living i hi now state j c (earlier here (by simp)), fun q p here => d.forks q p (earlier here (by simp)),
    fun q q' p first second => d.creator q q' p (earlier first (by simp)) (earlier second (by simp)), ?_, ?_, ?_, ?_, ?_⟩
  · intro i p c here
    obtain ⟨below, place⟩ := d.exits i p c (earlier here (by simp))
    refine ⟨below, ?_⟩
    rcases place with kept | ⟨j, m', hand⟩ | ⟨q, returned⟩
    · exact .inl kept
    · by_cases at_ : j = cur
      · subst at_
        rw [call] at hand
        cases hand
        exact .inr (.inr ⟨_, List.mem_append_right _ (List.mem_singleton.mpr rfl)⟩)
      · refine .inr (.inl ⟨j, m', ?_⟩)
        rw [Function.update_of_ne at_, hand]
    · exact .inr (.inr ⟨q, old returned⟩)
  · intro q p c here
    rcases member here with before | now
    · obtain ⟨⟨i, exit⟩, fork, none⟩ := d.returns q p c before
      exact ⟨⟨i, old exit⟩, old fork, none⟩
    · cases now
      exact ⟨⟨exited, old exit⟩, old forked, gone⟩
  · intro p
    exact countP_snoc (d.exitOnce p) fun equal => by cases equal
  · intro p
    refine countP_snoc (d.returnOnce p) fun equal e before => ?_
    obtain rfl : pid = p := by simpa [isReturn] using equal
    rw [Bool.eq_false_iff]
    intro return_
    obtain ⟨q, c, rfl⟩ := isReturn_iff.mp return_
    exact unreturned q c before
  · intro j c here
    rw [Function.update_apply] at here
    split at here
    · cases here
    next at_ =>
    obtain ⟨hj, usedJ, readyJ, namedJ, point⟩ := d.callOk j c here
    refine ⟨hj, usedJ, readyJ, namedJ, point.mono (fun p none hand q c' there => ?_) fun e => old⟩
    rcases member there with before | now
    · exact none q c' before
    · cases now
      -- two parents of one child
      obtain ⟨c₂, hand⟩ := hand
      rw [hand] at point
      have equal := d.creator _ _ _ point.forked forked
      exact at_ (d.distinct j hj cur running usedJ live (by rw [namedJ, mine, equal]))

end Steps

section Run
variable {σ : Type} {s t u : Kernel σ} {w x : Waits σ} {pagePml4 : UInt64} {events more : List ExitEvent} {c : WaitCall} {pid : Int32}

def slotOf (p : Process) : Slot := ⟨p.used, p.pid, p.state, p.parent, p.exitCode⟩

def slotsOf (s : Kernel σ) (i : Nat) : Slot := slotOf (s.procs i)

structure ExitInv (events : List ExitEvent) (w : Waits σ) : Prop where
  delivery : Delivery events (slotsOf w.kernel) w.calls w.kernel.nextPid.toInt
  next : w.kernel.nextPid.toInt = births events + 2

theorem births_append (events more : List ExitEvent) : births (events ++ more) = births events + births more := by
  unfold births
  rw [List.countP_append]

theorem booted_inv (booted : w.Booted) : ExitInv [] w := by
  have only (i : Nat) (small : i < maxProcs) (used : (slotsOf w.kernel i).used = true) : i = w.kernel.currentIdx :=
    (booted.used i small).mp used
  have one : (slotsOf w.kernel w.kernel.currentIdx).pid = 1 := booted.pid
  have next : w.kernel.nextPid.toInt = 2 := by
    rw [booted.nextPid]
    rfl
  refine ⟨⟨?_, ?_, ?_, ?_, ?_, ?_, ?_, ?_, ?_, ?_, ?_, ?_, ?_⟩, next⟩
  · intro i small used
    obtain rfl := only i small used
    rw [one, next]
    decide
  · intro i hi j hj usedI usedJ _
    rw [only i hi usedI, only j hj usedJ]
  · intro i small used
    obtain rfl := only i small used
    exact .inl booted.ready
  · intro i small used
    obtain rfl := only i small used
    exact .inl ⟨one, booted.parent⟩
  · intro i small used zombie
    obtain rfl := only i small used
    have ready : (slotsOf w.kernel w.kernel.currentIdx).state = .ready := booted.ready
    rw [ready] at zombie
    cases zombie
  · intro i _ _ _ j c here
    cases here
  · intro q p here
    cases here
  · intro q q' p here
    cases here
  · intro i p c here
    cases here
  · intro q p c here
    cases here
  · intro p
    exact Nat.zero_le _
  · intro p
    exact Nat.zero_le _
  · intro j c here
    rw [booted.calls] at here
    cases here

theorem slotsOf_setProc (s : Kernel σ) (idx : Nat) (p : Process) : slotsOf (s.setProc idx p) = Function.update (slotsOf s) idx (slotOf p) := by
  funext i
  unfold slotsOf Kernel.setProc
  dsimp only
  rw [Function.update_apply, Function.update_apply]
  split <;> rfl

theorem slotsOf_saveFrame (s : Kernel σ) (frame : UInt64) : slotsOf (s.saveFrame frame) = slotsOf s := by
  unfold Kernel.saveFrame
  split
  · rw [slotsOf_setProc]
    exact Function.update_eq_self _ _
  · rfl

theorem switchProc_slotsOf {frame : UInt64} (run : (switchProc frame).run s = some ((), t)) :
    slotsOf t = slotsOf s ∧ t.nextPid = s.nextPid := by
  have next := (switchProc_slots run).nextPid
  cases run
  refine ⟨?_, next⟩
  rw [← slotsOf_saveFrame s frame]
  unfold slotsOf
  rw [(switchNext_procs _).1]

theorem waitIter_goes {point : WaitPoint} {calls : Nat → Option WaitCall} {next : Int} {cur : Nat}
    (d : Delivery events (slotsOf s) calls next) (call : calls cur = some c) (run : (waitIter c).run s = some (.goes point, t)) :
    Delivery events (slotsOf t) (Function.update calls cur (some { c with point })) next ∧ t.nextPid = s.nextPid := by
  obtain ⟨running, live, ready, mine, ok⟩ := d.callOk cur c call
  obtain ⟨m, before⟩ := c
  have stays {after : WaitPoint} (uncounted : ∀ p c, before ≠ .count p c) (fine : PointOk events (slotsOf s) m after) :
      Delivery events (slotsOf s) (Function.update calls cur (some ⟨m, after⟩)) next := by
    refine d.goes (fun m' p c hand => ?_) fun c' now => ?_
    · rw [call] at hand
      exact uncounted p c (WaitCall.mk.inj (Option.some.inj hand)).2
    · cases now
      exact ⟨running, live, ready, mine, fine⟩
  unfold waitIter at run
  rw [run_bind_some (x := get) rfl] at run
  cases before with
  | used i =>
      dsimp only at run
      split at run
      · cases run
        exact ⟨stays (by simp) trivial, rfl⟩
      next small =>
      split at run
      · next used =>
          cases run
          exact ⟨stays (by simp) ⟨Nat.not_le.mp small, fun _ => used⟩, rfl⟩
      · cases run
        exact ⟨stays (by simp) trivial, rfl⟩
  | state i =>
      dsimp only at run
      split at run
      · next zombie =>
          cases run
          exact ⟨stays (by simp) ⟨ok.1, fun parent => ⟨ok.2 parent, zombie⟩⟩, rfl⟩
      · cases run
        exact ⟨stays (by simp) trivial, rfl⟩
  | parent i =>
      dsimp only at run
      split at run
      · next parent =>
          cases run
          obtain ⟨used, zombie⟩ := ok.2 parent
          exact ⟨stays (by simp) ⟨ok.1, used, zombie, parent⟩, rfl⟩
      · cases run
        exact ⟨stays (by simp) trivial, rfl⟩
  | pid i =>
      cases run
      exact ⟨stays (by simp) ⟨ok, rfl⟩, rfl⟩
  | code i p =>
      cases run
      exact ⟨stays (by simp) ⟨ok.1, ok.2, rfl⟩, rfl⟩
  | release i p c =>
      cases run
      exact ⟨d.release call (slotsOf_setProc s i _), rfl⟩
  | count p c => cases run
  | childUsed i =>
      dsimp only at run
      split at run
      · cases run
      split at run
      · cases run
        exact ⟨stays (by simp) trivial, rfl⟩
      · cases run
        exact ⟨stays (by simp) trivial, rfl⟩
  | childParent i =>
      dsimp only at run
      split at run
      · cases run
        exact ⟨stays (by simp) trivial, rfl⟩
      · cases run
        exact ⟨stays (by simp) trivial, rfl⟩
  | yields =>
      cases run
      exact ⟨stays (by simp) trivial, rfl⟩

theorem waitIter_reaped {code : Int32} (run : (waitIter c).run s = some (.returns (.reaped pid code), t)) :
    c.point = .count pid code ∧ slotsOf t = slotsOf s ∧ t.nextPid = s.nextPid := by
  obtain ⟨m, point⟩ := c
  unfold waitIter at run
  rw [run_bind_some (x := get) rfl] at run
  cases point with
  | count p c =>
      cases run
      exact ⟨rfl, rfl, rfl⟩
  | used i | childUsed i =>
      dsimp only at run
      split at run
      · cases run
      · split at run <;> cases run
  | state i | parent i | childParent i =>
      dsimp only at run
      split at run <;> cases run
  | pid i | code i p | release i p c | yields => cases run

theorem waitIter_noChild (run : (waitIter c).run s = some (.returns .noChild, t)) :
    (∀ p code, c.point ≠ .count p code) ∧ slotsOf t = slotsOf s ∧ t.nextPid = s.nextPid := by
  obtain ⟨m, point⟩ := c
  unfold waitIter at run
  rw [run_bind_some (x := get) rfl] at run
  cases point with
  | childUsed i =>
      dsimp only at run
      split at run
      · cases run
        exact ⟨by simp, rfl, rfl⟩
      · split at run <;> cases run
  | used i =>
      dsimp only at run
      split at run
      · cases run
      · split at run <;> cases run
  | state i | parent i | childParent i =>
      dsimp only at run
      split at run <;> cases run
  | pid i | code i p | release i p c | count p c | yields => cases run

theorem exitStep_inv (inv : ExitInv events w) (few : births (events ++ more) + 1 < 2 ^ 31 - 1) (step : ExitStep pagePml4 w more x) :
    ExitInv (events ++ more) x := by
  obtain ⟨d, next⟩ := inv
  rw [births_append] at few
  cases step with
  | @fork pid t runs run =>
      obtain ⟨used, ready, slot, call⟩ := runs
      have positive : 0 < w.kernel.nextPid := by
        rw [Int32.lt_iff_toInt_lt, next]
        change (0 : Int) < _
        omega
      rcases procFork_table positive run with ⟨rfl, same⟩ | ⟨idx, born⟩
      · rw [if_pos rfl, List.append_nil]
        have slots : slotsOf t = slotsOf w.kernel := by
          unfold slotsOf
          rw [same.procs]
        exact ⟨by rw [slots, same.nextPid]; exact d, by rw [same.nextPid]; exact next⟩
      · have success : pid ≠ -1 := by
          rintro rfl
          exact absurd born.positive (by decide)
        rw [if_neg success] at few ⊢
        have untaken : pidTaken w.kernel.procs w.kernel.nextPid = false := by
          rw [Bool.eq_false_iff]
          intro taken
          obtain ⟨i, small, live, number⟩ := pidTaken_iff.mp taken
          have below := (d.below i small live).2
          change (w.kernel.procs i).pid.toInt < _ at below
          rw [number] at below
          omega
        obtain ⟨number, after⟩ := born.first untaken
        have one : births [.forked w.kernel.current.pid pid] = 1 := rfl
        rw [one] at few
        have moved : t.nextPid.toInt = w.kernel.nextPid.toInt + 1 := by
          rw [after, toInt_pidAfter positive, if_neg (by omega)]
        have named : (slotsOf t idx).pid = pid := born.named
        have others (i : Nat) (other : i ≠ idx) : slotsOf t i = slotsOf w.kernel i := by
          unfold slotsOf
          rw [born.others i other]
        have forked := d.fork call born.slot slot used born.free
          others born.used born.state born.parent (by rw [named, number]) (by omega)
        rw [named] at forked
        refine ⟨by rw [moved]; exact forked, ?_⟩
        dsimp only
        rw [moved, next, births_append, one]
        push_cast
        omega
  | @exit code t runs run =>
      obtain ⟨used, ready, slot, call⟩ := runs
      cases run
      refine ⟨d.exit call slot used ready (slotsOf_setProc _ _ _), ?_⟩
      rw [births_append]
      exact next
  | wait runs =>
      obtain ⟨used, ready, slot, call⟩ := runs
      rw [List.append_nil]
      refine ⟨d.goes (fun m p c hand => ?_) fun c now => ?_, next⟩
      · rw [call] at hand
        cases hand
      · cases now
        exact ⟨slot, used, ready, rfl, trivial⟩
  | @goes c point t runs run =>
      rw [List.append_nil]
      obtain ⟨delivery, nextPid⟩ := waitIter_goes d runs.call run
      refine ⟨?_, ?_⟩
      · change Delivery events (slotsOf t) _ t.nextPid.toInt
        rw [nextPid]
        exact delivery
      · change t.nextPid.toInt = _
        rw [nextPid, next]
  | @reaps c pid code t runs run =>
      obtain ⟨point, slots, nextPid⟩ := waitIter_reaped run
      have call : w.calls w.kernel.currentIdx = some ⟨c.myPid, .count pid code⟩ := by rw [runs.call, ← point]
      refine ⟨?_, ?_⟩
      · change Delivery _ (slotsOf t) _ t.nextPid.toInt
        rw [slots, nextPid]
        exact d.reaps call
      · change t.nextPid.toInt = _
        rw [nextPid, next, births_append]
        rfl
  | @childless c t runs run =>
      obtain ⟨point, slots, nextPid⟩ := waitIter_noChild run
      rw [List.append_nil]
      refine ⟨?_, ?_⟩
      · change Delivery _ (slotsOf t) _ t.nextPid.toInt
        rw [slots, nextPid]
        refine d.goes (fun m p c' hand => ?_) fun c' now => ?_
        · rw [runs.call] at hand
          cases hand
          exact point p c' rfl
        · cases now
      · change t.nextPid.toInt = _
        rw [nextPid, next]
  | switch run =>
      obtain ⟨slots, nextPid⟩ := switchProc_slotsOf run
      rw [List.append_nil]
      refine ⟨?_, ?_⟩
      · dsimp only
        rw [slots, nextPid]
        exact d
      · dsimp only
        rw [nextPid, next]

theorem exitRun_inv (booted : w.Booted) (run : ExitRun pagePml4 w events x) (few : births events + 1 < 2 ^ 31 - 1) : ExitInv events x := by
  induction run with
  | start => exact booted_inv booted
  | step before step ih =>
      refine exitStep_inv (ih ?_) few step
      rw [births_append] at few
      omega

/-- Every exit is returned once at most, to the process that has forked the one that exited, with its number and exit code; until then
it stays in its slot, or the call that returns it next has just freed the slot. -/
theorem exits_delivered (booted : w.Booted) (run : ExitRun pagePml4 w events x) (few : births events + 1 < 2 ^ 31 - 1) :
    (∀ p, events.countP (isReturn p) ≤ 1 ∧ events.countP (isExit p) ≤ 1) ∧
      (∀ q p c, .returned q p c ∈ events → .forked q p ∈ events ∧ (∃ i, .exited i p c ∈ events) ∧
        ∀ q', .forked q' p ∈ events → q' = q) ∧
      ∀ i p c, .exited i p c ∈ events → (∀ q, .returned q p c ∉ events) →
        (i < maxProcs ∧ (x.kernel.procs i).used = true ∧ (x.kernel.procs i).pid = p ∧ (x.kernel.procs i).state = .zombie ∧
          (x.kernel.procs i).exitCode = c ∧ (p = 1 ∧ (x.kernel.procs i).parent = 1 ∨ .forked (x.kernel.procs i).parent p ∈ events)) ∨
        ∃ j q, x.calls j = some ⟨q, .count p c⟩ ∧ .forked q p ∈ events := by
  have d := (exitRun_inv booted run few).delivery
  refine ⟨fun p => ⟨d.returnOnce p, d.exitOnce p⟩, fun q p c returned => ?_, fun i p c exited open_ => ?_⟩
  · obtain ⟨exited, forked, -⟩ := d.returns q p c returned
    exact ⟨forked, exited, fun q' other => d.creator q' q p other forked⟩
  · rcases (d.exits i p c exited).2 with ⟨small, used, named, zombie, code⟩ | ⟨j, q, hand⟩ | ⟨q, returned⟩
    · refine .inl ⟨small, used, named, zombie, code, ?_⟩
      rcases d.parent i small used with ⟨first, parent⟩ | forked
      · exact .inl ⟨named.symm.trans first, parent⟩
      · rw [named] at forked
        exact .inr forked
    · exact .inr ⟨j, q, hand, (d.callOk j _ hand).point.forked⟩
    · exact (open_ q returned).elim

end Run

section Reap

variable {σ : Type} {pagePml4 : UInt64} {w s : Waits σ} {events : List ExitEvent} {pid : Int32} {point next : WaitPoint}

theorem runs_of {i : Nat} {call : Option WaitCall} (current : s.kernel.currentIdx = i) (used : (s.kernel.procs i).used = true)
    (ready : (s.kernel.procs i).state = .ready) (small : i < maxProcs) (calls : s.calls i = call) : s.Runs call := by
  subst current
  exact ⟨used, ready, small, calls⟩

theorem wait_goes (run : ExitRun pagePml4 w events (s.setCall 0 (some ⟨pid, point⟩))) (first : s.kernel.currentIdx = 0)
    (used : (s.kernel.procs 0).used = true) (ready : (s.kernel.procs 0).state = .ready)
    (goes : (waitIter ⟨pid, point⟩).run s.kernel = some (.goes next, s.kernel)) :
    ExitRun pagePml4 w events (s.setCall 0 (some ⟨pid, next⟩)) := by
  have runs : (s.setCall 0 (some ⟨pid, point⟩)).Runs (some ⟨pid, point⟩) :=
    runs_of first used ready (by decide) (Function.update_self 0 _ s.calls)
  have step := run.step (.goes runs goes)
  simpa [Waits.setCall, first, Function.update_idem] using step

/-- The process in slot 0 waits for a child in slot 1 that has exited. -/
theorem wait_reaps (run : ExitRun pagePml4 w events s) (runs : s.Runs none) (first : s.kernel.currentIdx = 0)
    (child : (s.kernel.procs 1).used = true) (zombie : (s.kernel.procs 1).state = .zombie)
    (mine : (s.kernel.procs 1).parent = s.kernel.current.pid) :
    ∃ x, ExitRun pagePml4 w (events ++ [.returned s.kernel.current.pid (s.kernel.procs 1).pid (s.kernel.procs 1).exitCode]) x := by
  have used : (s.kernel.procs 0).used = true := by
    rw [← first]
    exact runs.used
  have ready : (s.kernel.procs 0).state = .ready := by
    rw [← first]
    exact runs.ready
  have called := run.step (.wait runs)
  rw [List.append_nil, first] at called
  have state₀ := wait_goes called first used ready (by simp [waitIter, maxProcs, used]; rfl)
  have used₁ := wait_goes state₀ first used ready (by simp [waitIter, ready]; rfl)
  have state₁ := wait_goes used₁ first used ready (by simp [waitIter, maxProcs, child]; rfl)
  have parent₁ := wait_goes state₁ first used ready (by simp [waitIter, zombie]; rfl)
  have pid₁ := wait_goes parent₁ first used ready (by simp [waitIter, mine]; rfl)
  have code₁ := wait_goes pid₁ first used ready (by simp [waitIter]; rfl)
  have release₁ := wait_goes code₁ first used ready (by simp [waitIter]; rfl)
  have releasing : (s.setCall 0 (some ⟨s.kernel.current.pid, .release 1 (s.kernel.procs 1).pid (s.kernel.procs 1).exitCode⟩)).Runs
      (some ⟨s.kernel.current.pid, .release 1 (s.kernel.procs 1).pid (s.kernel.procs 1).exitCode⟩) :=
    runs_of first used ready (by decide) (Function.update_self 0 _ s.calls)
  have count₁ := release₁.step (.goes releasing rfl)
  rw [List.append_nil] at count₁
  refine ⟨_, count₁.step (@ExitStep.reaps _ _ _ ⟨_, .count (s.kernel.procs 1).pid (s.kernel.procs 1).exitCode⟩ _ _ _ ?_ rfl)⟩
  refine ⟨?_, ?_, ?_, ?_⟩ <;> simp [Waits.setCall, Kernel.current, Kernel.setProc, first, used, ready, maxProcs]

end Reap

def firstProcess : Waits Fs.Disk where
  kernel := { oneProcess with procs := Function.update oneProcess.procs 0 { oneProcess.procs 0 with parent := 1 } }
  calls := fun _ => none

theorem firstProcess_booted : firstProcess.Booted where
  slot := by decide
  used := by
    intro i _
    have others (other : i ≠ 0) : firstProcess.kernel.procs i = noProcess := by
      change Function.update _ 0 _ i = _
      rw [Function.update_of_ne other]
      change Function.update (fun _ => noProcess) 0 _ i = _
      rw [Function.update_of_ne other]
    change _ ↔ i = 0
    constructor
    · intro used
      by_contra other
      rw [others other] at used
      cases used
    · rintro rfl
      rfl
  pid := rfl
  parent := rfl
  ready := rfl
  nextPid := rfl
  calls := fun _ => rfl

/-- The first process forks, its child runs and exits, and the first one runs again. -/
def childRuns : KernelM Fs.Disk (List Nat × List Bool × List Int32) := do
  let child ← procFork 0x1000
  switchProc 0
  let t ← get
  procExit 7
  switchProc 0
  let u ← get
  return ([t.currentIdx, u.currentIdx],
    [(t.procs 1).used, decide ((t.procs 1).state = .ready), (u.procs 0).used, decide ((u.procs 0).state = .ready), (u.procs 1).used,
      decide ((u.procs 1).state = .zombie)],
    [child, (t.procs 1).pid, (u.procs 0).pid, (u.procs 1).pid, (u.procs 1).parent, (u.procs 1).exitCode])

theorem exits_delivered_forked : ∃ x events, ExitRun 0x1000 firstProcess events x ∧ events = [.forked 1 2, .exited 1 2 7, .returned 1 2 7] ∧
    .forked 1 2 ∈ events ∧ (∃ i, .exited i 2 7 ∈ events) ∧ ∀ q', .forked q' 2 ∈ events → q' = 1 := by
  have value : (childRuns.run firstProcess.kernel).map (fun r => r.1) = some ([1, 0], [true, true, true, true, true, true],
    [2, 2, 1, 2, 1, 7]) := by decide +kernel
  obtain ⟨⟨r, u⟩, run, same⟩ := Option.map_eq_some_iff.mp value
  dsimp only at same
  subst same
  unfold childRuns at run
  obtain ⟨child, s, fork, run⟩ := run_bind_eq_some.mp run
  obtain ⟨⟨⟩, t, toChild, run⟩ := run_bind_eq_some.mp run
  rw [run_bind_some (x := get) rfl] at run
  obtain ⟨⟨⟩, t', exit, run⟩ := run_bind_eq_some.mp run
  obtain ⟨⟨⟩, u', toParent, run⟩ := run_bind_eq_some.mp run
  rw [run_bind_some (x := get) rfl] at run
  obtain ⟨values, -⟩ := pure_run run
  simp only [Prod.mk.injEq, List.cons.injEq, and_true] at values
  obtain ⟨⟨current₁, current⟩, ⟨used₁, ready₁, used, ready, used', zombie⟩, rfl, pid₁, pid, pid', parent, code⟩ := values
  have forked : ExitRun 0x1000 firstProcess [.forked 1 2] ⟨s, firstProcess.calls⟩ :=
    ExitRun.start.step (.fork ⟨rfl, rfl, by decide, rfl⟩ fork)
  have switched := forked.step (.switch toChild)
  have runs₁ : Waits.Runs ⟨t, firstProcess.calls⟩ none := runs_of current₁ used₁ (of_decide_eq_true ready₁) (by decide) rfl
  have exited := switched.step (.exit runs₁ exit)
  have back := exited.step (.switch toParent)
  have runs : Waits.Runs ⟨u', firstProcess.calls⟩ none := runs_of current used (of_decide_eq_true ready) (by decide) rfl
  obtain ⟨x, reaped⟩ := wait_reaps back runs current used' (of_decide_eq_true zombie) (by
    unfold Kernel.current
    dsimp only
    rw [current, parent, pid])
  have name₁ : t.current.pid = 2 := by
    unfold Kernel.current
    rw [current₁, pid₁]
  have name : u'.current.pid = 1 := by
    unfold Kernel.current
    rw [current, pid]
  dsimp only at reaped
  rw [name₁, name, pid', code, current₁] at reaped
  have events : ([.forked 1 2] ++ [] ++ [.exited 1 2 7] ++ [] ++ [.returned 1 2 7] : List ExitEvent)
      = [.forked 1 2, .exited 1 2 7, .returned 1 2 7] := rfl
  rw [events] at reaped
  exact ⟨x, _, reaped, rfl, (exits_delivered firstProcess_booted reaped (by decide)).2.1 1 2 7 (by simp)⟩

end SwiftBSD.Proof.Sched
