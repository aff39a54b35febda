import SwiftBSD.Proof.Mm.CloneStep

namespace SwiftBSD.Proof.Mm
open Lib SwiftBSD.Mm

variable {n d i : Nat} {m m' s t : Machine} {phys parent child a e : UInt64}

inductive AllocRun (m : Machine) : UInt64 → Machine → Prop
  | none : AllocRun m 0 m
  | took {g : Nat} (bound : g ≤ maxPages) (free : m.bitmap g = false) : AllocRun m (addrOf g)
      { m with bitmap := Function.update m.bitmap g true, freePageCount := m.freePageCount - 1 }

theorem pageAlloc_run (run : pageAlloc.run m = some (a, t)) : AllocRun m a t := by
  unfold pageAlloc at run
  rw [run_bind_some (x := get) rfl] at run
  cases found : firstFrom (fun i => !m.bitmap i) 0 m.lastPhysPage with
  | none =>
      rw [found] at run
      cases run
      exact .none
  | some g =>
      rw [found] at run
      obtain ⟨-, upper, free, -⟩ := firstFrom_some found
      cases run
      have := m.bounded
      exact .took (by omega) (by simpa using free)

/-- `t` differs from `s` in the contents of frame `c` only. -/
structure Wrote (c : Nat) (s t : Machine) : Prop where
  bitmap : t.bitmap = s.bitmap
  mem : ∀ h, h ≠ c → t.mem h = s.mem h

theorem Wrote.refl (c : Nat) (s : Machine) : Wrote c s s := ⟨rfl, fun _ _ => rfl⟩

theorem setWord_run (run : (setWord phys i e).run s = some ((), t)) : t = setEntry s (frameOf phys) i e := by
  cases run
  rfl

theorem Wrote.setWord {c : Nat} (wrote : Wrote c m s) (here : frameOf phys = c)
    (run : (setWord phys i e).run s = some ((), t)) : Wrote c m t := by
  rw [setWord_run run, here]
  exact ⟨wrote.bitmap, fun h other => (setEntry_other other).trans (wrote.mem h other)⟩

theorem forRange_wrote {body : Nat → MmM Unit} {c lo : Nat}
    (each : ∀ j s t, Wrote c m s → (body j).run s = some ((), t) → Wrote c m t)
    (run : (forRange body lo n).run m = some ((), t)) : Wrote c m t :=
  forRange_run (fun _ s => Wrote c m s) (.refl c m) (fun j s t _ _ wrote step => each j s t wrote step) run

/-- What a function that makes a new table does: it fails, or the table is a frame that was free. -/
inductive TableRun (m : Machine) : UInt64 → Machine → Prop
  | none {t : Machine} (mem : t.mem = m.mem) (grows : ∀ h, m.bitmap h = true → t.bitmap h = true) : TableRun m 0 t
  | took {g : Nat} {t : Machine} (nonzero : addrOf g ≠ 0) (bound : g ≤ maxPages) (free : m.bitmap g = false)
      (bitmap : t.bitmap = Function.update m.bitmap g true) (mem : ∀ h, h ≠ g → t.mem h = m.mem h) :
      TableRun m (addrOf g) t

theorem TableRun.wrote {g : Nat} (nonzero : addrOf g ≠ 0) (bound : g ≤ maxPages) (free : m.bitmap g = false)
    (bitmap : s.bitmap = Function.update m.bitmap g true) (mem : ∀ h, h ≠ g → s.mem h = m.mem h) (wrote : Wrote g s t) :
    TableRun m (addrOf g) t :=
  .took nonzero bound free (wrote.bitmap.trans bitmap) fun h other => (wrote.mem h other).trans (mem h other)

theorem vmmAllocPage_run (run : vmmAllocPage.run m = some (a, t)) : TableRun m a t := by
  unfold vmmAllocPage at run
  obtain ⟨phys, s, alloc, run⟩ := run_bind_eq_some.mp run
  cases pageAlloc_run alloc with
  | none =>
      cases run
      exact .none rfl fun _ used => used
  | @took g bound free =>
      split at run
      · cases run
        refine .none rfl fun h used => ?_
        dsimp only
        by_cases same : h = g
        · rw [same, Function.update_self]
        · rw [Function.update_of_ne same, used]
      · next nonzero =>
          obtain ⟨_, s₁, zero, run⟩ := run_bind_eq_some.mp run
          cases run
          have wrote := forRange_wrote (fun _ _ _ wrote step => wrote.setWord (frameOf_addrOf bound) step) zero
          refine .wrote nonzero bound free ?_ ?_ wrote
          · rfl
          · exact fun _ _ => rfl

theorem cloneTableRw_run {user : Bool} (run : (cloneTableRw parent user).run m = some (a, t)) : TableRun m a t := by
  unfold cloneTableRw at run
  obtain ⟨phys, s, alloc, run⟩ := run_bind_eq_some.mp run
  cases vmmAllocPage_run alloc with
  | none mem grows =>
      cases run
      exact .none mem grows
  | @took g _ nonzero bound free bitmap mem =>
      rw [if_neg nonzero] at run
      obtain ⟨_, s₁, copy, run⟩ := run_bind_eq_some.mp run
      cases run
      refine .wrote nonzero bound free bitmap mem (forRange_wrote (fun j s t wrote step => ?_) copy)
      unfold rwEntry at step
      rw [run_bind_some (x := word _ _) rfl] at step
      split at step
      · exact wrote.setWord (frameOf_addrOf bound) step
      split at step
      · exact wrote.setWord (frameOf_addrOf bound) step
      · exact wrote.setWord (frameOf_addrOf bound) step

theorem cowEntry_run {p c : Nat} (parentAt : frameOf parent = p) (childAt : frameOf child = c) (differ : p ≠ c)
    (run : (cowEntry parent child i).run s = some ((), t)) :
    t = setEntry (setEntry s p i (cow (s.mem p i))) c i (cowCopy (s.mem p i)) := by
  subst parentAt childAt
  unfold cowEntry at run
  rw [run_bind_some (x := word _ _) rfl] at run
  have unchanged (same : cow (s.mem (frameOf parent) i) = s.mem (frameOf parent) i) :
      setEntry s (frameOf parent) i (cow (s.mem (frameOf parent) i)) = s := by
    unfold setEntry
    rw [same, Function.update_eq_self, Function.update_eq_self]
  split at run
  · next absent =>
      have same : cow (s.mem (frameOf parent) i) = s.mem (frameOf parent) i := if_neg fun both => both.1 absent
      have copy : cowCopy (s.mem (frameOf parent) i) = 0 := if_pos absent
      rw [unchanged same, copy, setWord_run run]
  · next here =>
      have copy : cowCopy (s.mem (frameOf parent) i) = cow (s.mem (frameOf parent) i) := if_neg here
      split at run
      · next user =>
          have marked : cow (s.mem (frameOf parent) i) = s.mem (frameOf parent) i &&& ~~~pgWrite := if_pos ⟨here, user⟩
          obtain ⟨_, s₁, first, run⟩ := run_bind_eq_some.mp run
          rw [copy, marked, setWord_run run, setWord_run first]
      · next supervisor =>
          have same : cow (s.mem (frameOf parent) i) = s.mem (frameOf parent) i := if_neg fun both => supervisor both.2
          rw [unchanged same, copy, same, setWord_run run]

/-- The page table `p` is marked, and `c` is its copy. -/
structure PtRun (p c : Nat) (s t : Machine) : Prop where
  bitmap : t.bitmap = s.bitmap
  other : ∀ h, h ≠ p → h ≠ c → t.mem h = s.mem h
  parent : t.mem p = cowTable (s.mem p)
  child : ∀ i, t.mem c i = if i < 512 then cowCopy (s.mem p i) else s.mem c i

theorem ite_first_succ {α : Type} (i j : Nat) (new old : Nat → α) :
    (if i = j then new j else if i < j then new i else old i) = if i < j + 1 then new i else old i := by
  by_cases same : i = j
  · rw [if_pos same, if_pos (by omega), same]
  · by_cases less : i < j
    · rw [if_neg same, if_pos less, if_pos (by omega)]
    · rw [if_neg same, if_neg less, if_neg (by omega)]

theorem cowEntries_run {p c : Nat} (parentAt : frameOf parent = p) (childAt : frameOf child = c) (differ : p ≠ c)
    (run : (forRange (cowEntry parent child) 0 512).run s = some ((), t)) : PtRun p c s t := by
  have result := forRange_run (fun j u => u.bitmap = s.bitmap ∧ (∀ h, h ≠ p → h ≠ c → u.mem h = s.mem h) ∧
    (∀ i, u.mem p i = if i < j then cow (s.mem p i) else s.mem p i) ∧
    ∀ i, u.mem c i = if i < j then cowCopy (s.mem p i) else s.mem c i)
    ⟨rfl, fun _ _ _ => rfl, fun _ => rfl, fun _ => rfl⟩ ?_ run
  · obtain ⟨bitmap, other, parent, child⟩ := result
    exact ⟨bitmap, other, funext parent, child⟩
  · rintro j u v - - ⟨bitmap, other, parent, child⟩ step
    rw [cowEntry_run parentAt childAt differ step]
    have here : u.mem p j = s.mem p j := by rw [parent j, if_neg (Nat.lt_irrefl j)]
    refine ⟨bitmap, fun h notParent notChild => ?_, fun i => ?_, fun i => ?_⟩
    · rw [setEntry_other notChild, setEntry_other notParent, other h notParent notChild]
    · rw [setEntry_other differ, setEntry_same, Function.update_apply, here, parent i]
      exact ite_first_succ i j (fun i => cow (s.mem p i)) (s.mem p)
    · rw [setEntry_same, Function.update_apply, here, setEntry_other (Ne.symm differ), child i]
      exact ite_first_succ i j (fun i => cowCopy (s.mem p i)) (s.mem c)

/-- A function that makes the child's copy of a table at depth `d`. -/
def Copies (d : Nat) (copy : UInt64 → MmM UInt64) : Prop :=
  ∀ parent m a t, m.bitmap (frameOf parent) = true → (copy parent).run m = some (a, t) →
    (a = 0 ∧ t.mem = m.mem ∧ ∀ h, m.bitmap h = true → t.bitmap h = true) ∨
    ∃ g, a = addrOf g ∧ addrOf g ≠ 0 ∧ Copied d m t (frameOf parent) g

/-- A loop that copies the first `n` entries of a table at depth `d`, or leaves the function. -/
def Descends (n d : Nat) (descend : UInt64 → UInt64 → MmM (Option Unit)) : Prop :=
  ∀ parent child m r t, Ready n d m (frameOf parent) (frameOf child) → (descend parent child).run m = some (r, t) →
    match r with
    | none => Cloned n d m t (frameOf parent) (frameOf child)
    | some () => Marked n d m t (frameOf parent) (frameOf child)

theorem copies_cloneTableRw : Copies (d+1) (cloneTableRw · true) := by
  intro parent m a t _ run
  cases cloneTableRw_run run with
  | none mem grows => exact .inl ⟨rfl, mem, grows⟩
  | took nonzero bound free bitmap mem =>
      exact .inr ⟨_, rfl, nonzero, bound, free, bitmap, fun h other => .inl (mem h other)⟩

theorem copies_clonePtCow : Copies 0 clonePtCow := by
  intro parent m a t used run
  unfold clonePtCow at run
  obtain ⟨phys, s, alloc, run⟩ := run_bind_eq_some.mp run
  cases vmmAllocPage_run alloc with
  | none mem grows =>
      cases run
      exact .inl ⟨rfl, mem, grows⟩
  | @took g _ nonzero bound free bitmap mem =>
      rw [if_neg nonzero] at run
      obtain ⟨_, s₁, copy, run⟩ := run_bind_eq_some.mp run
      cases run
      have differ : frameOf parent ≠ g := by
        rintro rfl
        rw [free] at used
        cases used
      have cowed := cowEntries_run rfl (frameOf_addrOf bound) differ copy
      refine .inr ⟨g, rfl, nonzero, bound, free, cowed.bitmap.trans bitmap, fun h other => ?_⟩
      by_cases same : h = frameOf parent
      · subst same
        exact .inr ⟨rfl, rfl, by rw [cowed.parent, mem _ differ]⟩
      · exact .inl ((cowed.other h same other).trans (mem h other))

theorem descends_clonePt : Descends 512 0 clonePt := by
  intro parent child m r t ready run
  unfold clonePt at run
  obtain ⟨_, s, copy, run⟩ := run_bind_eq_some.mp run
  cases run
  have differ := (ready.taken [] _ .nil rfl).2
  have cowed := cowEntries_run rfl rfl differ copy
  have empty {q : List Nat} (path : Path 512 512 0 q) : q = [] := List.eq_nil_of_length_eq_zero (by have := path.length_le; omega)
  have root {f : Nat} (pt : PtOf 512 0 m.mem (frameOf parent) f) : f = frameOf parent := by
    obtain ⟨q, path, -, at_⟩ := pt
    rw [empty path] at at_
    exact (Option.some.inj at_).symm
  refine ⟨⟨fun h used => by rw [cowed.bitmap, used], fun h used other => ?_⟩, fun f pt => ?_,
    fun i small => by rw [cowed.child i, if_pos small], fun q g path nonempty => (nonempty (empty path)).elim,
    ⟨fun q q' f path path' _ _ => by rw [empty path, empty path']⟩,
    fun i large => by rw [cowed.child i, if_neg (by omega)]⟩
  · by_cases same : h = frameOf parent
    · subst same
      exact .inr ⟨⟨[], .nil, rfl, rfl⟩, cowed.parent⟩
    · exact .inl (cowed.other h same other)
  · rw [root pt]
    exact cowed.parent

theorem cloneEntry_run {copy : UInt64 → MmM UInt64} {descend : UInt64 → UInt64 → MmM (Option Unit)} {j : Nat} {r : Option Unit}
    (copies : Copies d copy) (descends : Descends 512 d descend) (ready : Ready n (d+1) m (frameOf parent) (frameOf child))
    (bound : j < n) (before : Cloned j (d+1) m s (frameOf parent) (frameOf child))
    (step : (cloneEntry copy descend parent child j).run s = some (r, t)) :
    match r with
    | none => Cloned (j+1) (d+1) m t (frameOf parent) (frameOf child)
    | some () => Marked (j+1) (d+1) m t (frameOf parent) (frameOf child) := by
  have entry := congrFun (ready.parent before.toMarked (Nat.le_of_lt bound)) j
  unfold cloneEntry at step
  rw [run_bind_some (x := word _ _) rfl, entry] at step
  split at step
  · next absent =>
      rw [run_bind_some (x := setWord _ _ _) rfl] at step
      cases step
      have leaf : next (m.mem (frameOf parent) j) = none := if_pos absent
      have extended := extended_leaf (d := d) (s := s) (c := frameOf child) leaf
      rw [if_pos absent] at extended
      exact before.extend ready bound extended
  split at step
  · next here huge =>
      rw [run_bind_some (x := setWord _ _ _) rfl] at step
      cases step
      have leaf : next (m.mem (frameOf parent) j) = none := by
        unfold next
        rw [if_neg here, if_pos huge]
      have extended := extended_leaf (d := d) (s := s) (c := frameOf child) leaf
      rw [if_neg here] at extended
      exact before.extend ready bound extended
  · next here small =>
      have table : next (m.mem (frameOf parent) j) = some (frameOf (m.mem (frameOf parent) j &&& pageMask)) := by
        unfold next
        rw [if_neg here, if_neg small, frameOf_pageMask]
      have below : Below d j m.mem (frameOf parent) (frameOf (m.mem (frameOf parent) j &&& pageMask)) :=
        ⟨_, [], table, .nil, rfl⟩
      obtain ⟨a, s₁, copying, step⟩ := run_bind_eq_some.mp step
      have used := before.grows _ (ready.below bound below).1
      rcases copies _ s a s₁ used copying with ⟨rfl, mem, grows⟩ | ⟨g, rfl, nonzero, copied⟩
      · cases step
        refine before.toMarked.advance ⟨grows, fun h _ _ _ => by rw [mem], fun h below => .inl ?_⟩
        obtain ⟨f, q, here', path, at_⟩ := below
        rw [mem, ready.later before.toMarked bound here' path at_]
      · rw [if_neg nonzero, run_bind_some (x := setWord _ _ _) rfl] at step
        have gAt := frameOf_addrOf copied.bound
        have ready' := copied.readyBelow ready bound before table
        have result := descends _ _ _ r t (by rw [gAt]; exact ready') step
        rw [gAt] at result
        cases r with
        | none => exact before.extend ready bound (copied.extended ready bound before table result)
        | some _ => exact before.toMarked.advance (copied.advanced ready bound before table result)

theorem Descends.entries {copy : UInt64 → MmM UInt64} {descend : UInt64 → UInt64 → MmM (Option Unit)}
    (copies : Copies d copy) (descends : Descends 512 d descend) :
    Descends n (d+1) (cloneEntries copy descend n) := by
  intro parent child m r t ready run
  refine searchM_run (fun j s => Cloned j (d+1) m s (frameOf parent) (frameOf child)) (fun r t => match r with
    | none => Cloned n (d+1) m t (frameOf parent) (frameOf child)
    | some () => Marked n (d+1) m t (frameOf parent) (frameOf child)) (.start m d _ _) ?_ ?_ run
  · intro j s r t _ upper before step
    have bound : j < n := by omega
    have result := cloneEntry_run copies descends ready bound before step
    cases r with
    | none => exact result
    | some _ =>
        exact ⟨result.grows, fun h used other =>
          (result.old h used other).imp_right fun changed => ⟨changed.1.grow bound, changed.2⟩⟩
  · intro t done
    rw [Nat.zero_add] at done
    exact done

theorem descends_clonePd : Descends 512 1 clonePd := .entries copies_clonePtCow descends_clonePt

theorem descends_clonePdpt : Descends 512 2 clonePdpt := .entries copies_cloneTableRw descends_clonePd

end SwiftBSD.Proof.Mm
