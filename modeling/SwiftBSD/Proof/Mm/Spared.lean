import SwiftBSD.Proof.Mm.CloneRun

namespace SwiftBSD.Proof.Mm
open Lib SwiftBSD.Mm

variable {m s t u : Machine} {n d g p c : Nat} {a parent child cr3 : UInt64}

/-- No frame is given back, and a frame that is free in the end has not been written. -/
structure Spares (s t : Machine) : Prop where
  grows : ∀ f, s.bitmap f = true → t.bitmap f = true
  free : ∀ f, t.bitmap f = false → t.mem f = s.mem f

namespace Spares

theorem refl (s : Machine) : Spares s s := ⟨fun _ used => used, fun _ _ => rfl⟩

theorem trans (first : Spares s t) (second : Spares t u) : Spares s u where
  grows := fun f used => second.grows f (first.grows f used)
  free := by
    intro f free
    have free' : t.bitmap f = false := by
      cases used : t.bitmap f with
      | false => rfl
      | true => exact (second.grows f used).symm.trans free
    rw [second.free f free, first.free f free']

theorem setEntry {i : Nat} {e : UInt64} (spares : Spares s t) (used : t.bitmap p = true) : Spares s (setEntry t p i e) where
  grows := spares.grows
  free := by
    intro f free
    have other : f ≠ p := by
      rintro rfl
      exact absurd (used.symm.trans free) (by decide)
    rw [setEntry_other other]
    exact spares.free f free

end Spares

theorem TableRun.spares (table : TableRun m a t) : Spares m t := by
  cases table with
  | none mem grows => exact ⟨grows, fun f _ => by rw [mem]⟩
  | @took g _ nonzero bound free bitmap mem =>
      refine ⟨fun f used => ?_, fun f still => mem f ?_⟩
      · rw [bitmap, Function.update_apply]
        split
        · rfl
        · exact used
      · rintro rfl
        rw [bitmap, Function.update_self] at still
        cases still

theorem Copied.spares {f : Nat} (copied : Copied d s t f g) (used : s.bitmap f = true) : Spares s t where
  grows := fun h taken => copied.grows taken
  free := by
    intro h still
    have other : h ≠ g := by
      rintro rfl
      rw [copied.bitmap, Function.update_self] at still
      cases still
    refine (copied.mem h other).resolve_right fun marked => ?_
    rw [marked.2.1] at still
    exact absurd ((copied.grows used).symm.trans still) (by decide)

/-- A loop of the copy writes to frames in use. -/
def DescendsSparing (n d : Nat) (descend : UInt64 → UInt64 → MmM (Option Unit)) : Prop :=
  ∀ parent child m r t, Ready n d m (frameOf parent) (frameOf child) → (descend parent child).run m = some (r, t) → Spares m t

theorem sparing_clonePt : DescendsSparing 512 0 clonePt := by
  intro parent child m r t ready run
  unfold clonePt at run
  obtain ⟨_, s, copy, run⟩ := run_bind_eq_some.mp run
  cases run
  obtain ⟨used, differ⟩ := ready.taken [] _ .nil rfl
  have cowed := cowEntries_run rfl rfl differ copy
  refine ⟨fun f used => by rw [cowed.bitmap, used], fun f still => ?_⟩
  rw [cowed.bitmap] at still
  refine cowed.other f ?_ ?_
  · rintro rfl
    rw [used] at still
    cases still
  · rintro rfl
    rw [ready.child] at still
    cases still

theorem cloneEntry_spares {copy : UInt64 → MmM UInt64} {descend : UInt64 → UInt64 → MmM (Option Unit)} {j : Nat} {r : Option Unit}
    (copies : Copies d copy) (sparing : DescendsSparing 512 d descend) (ready : Ready n (d+1) m (frameOf parent) (frameOf child))
    (bound : j < n) (before : Cloned j (d+1) m s (frameOf parent) (frameOf child))
    (step : (cloneEntry copy descend parent child j).run s = some (r, t)) : Spares s t := by
  have entry := congrFun (ready.parent before.toMarked (Nat.le_of_lt bound)) j
  have childUsed : s.bitmap (frameOf child) = true := before.grows _ ready.child
  unfold cloneEntry at step
  rw [run_bind_some (x := word _ _) rfl, entry] at step
  split at step
  · rw [run_bind_some (x := setWord _ _ _) rfl] at step
    cases step
    exact (Spares.refl s).setEntry childUsed
  split at step
  · rw [run_bind_some (x := setWord _ _ _) rfl] at step
    cases step
    exact (Spares.refl s).setEntry childUsed
  · next here small =>
      have table : next (m.mem (frameOf parent) j) = some (frameOf (m.mem (frameOf parent) j &&& pageMask)) := by
        unfold next
        rw [if_neg here, if_neg small, frameOf_pageMask]
      have below : Below d j m.mem (frameOf parent) (frameOf (m.mem (frameOf parent) j &&& pageMask)) :=
        ⟨_, [], table, .nil, rfl⟩
      obtain ⟨a, s₁, copying, step⟩ := run_bind_eq_some.mp step
      have used := before.grows _ (ready.below bound below).1
      rcases copies _ s a s₁ used copying with ⟨rfl, mem, grows⟩ | ⟨g, rfl, nonzero, copied⟩
      · cases step
        exact ⟨grows, fun f _ => by rw [mem]⟩
      · rw [if_neg nonzero, run_bind_some (x := setWord _ _ _) rfl] at step
        have gAt := frameOf_addrOf copied.bound
        have ready' := copied.readyBelow ready bound before table
        have first := Spares.setEntry (i := j) (e := tableEntry g) (copied.spares used) (copied.grows childUsed)
        exact first.trans (sparing _ _ _ r t (by rw [gAt]; exact ready') step)

theorem DescendsSparing.entries {copy : UInt64 → MmM UInt64} {descend : UInt64 → UInt64 → MmM (Option Unit)} (copies : Copies d copy)
    (descends : Descends 512 d descend) (sparing : DescendsSparing 512 d descend) : DescendsSparing n (d+1) (cloneEntries copy descend n) := by
  intro parent child m r t ready run
  refine searchM_run (fun j s => Cloned j (d+1) m s (frameOf parent) (frameOf child) ∧ Spares m s) (fun _ t => Spares m t)
    ⟨.start m d _ _, .refl m⟩ ?_ (fun t done => done.2) run
  intro j s r t _ upper before step
  have bound : j < n := by omega
  have spares := before.2.trans (cloneEntry_spares copies sparing ready bound before.1 step)
  have result := cloneEntry_run copies descends ready bound before.1 step
  cases r with
  | none => exact ⟨result, spares⟩
  | some _ => exact spares

theorem sparing_clonePdpt : DescendsSparing 512 2 clonePdpt :=
  .entries copies_cloneTableRw descends_clonePd (.entries copies_clonePtCow descends_clonePt sparing_clonePt)

theorem vmmClonePml4_spares (tables : LowTables m cr3) (run : (vmmClonePml4 cr3).run m = some (child, t)) : Spares m t := by
  unfold vmmClonePml4 at run
  obtain ⟨a, s, alloc, run⟩ := run_bind_eq_some.mp run
  have first := (vmmAllocPage_run alloc).spares
  cases vmmAllocPage_run alloc with
  | none mem grows =>
      cases run
      exact first
  | @took c _ nonzero bound free bitmap mem =>
      rw [if_neg nonzero] at run
      obtain ⟨_, s₁, high, run⟩ := run_bind_eq_some.mp run
      obtain ⟨r, s₂, low, run⟩ := run_bind_eq_some.mp run
      have differ : frameOf cr3 ≠ c := tables.ne_new free ⟨[], .nil, rfl⟩
      have highRun := highHalf_run bound differ bitmap mem high
      have cAt := frameOf_addrOf bound
      have second : Spares m s₁ := by
        refine ⟨fun f used => highRun.grows used, fun f still => highRun.other f ?_⟩
        rintro rfl
        rw [highRun.bitmap, Function.update_self] at still
        cases still
      have entries : DescendsSparing 256 3 (cloneEntries (cloneTableRw · true) clonePdpt 256) :=
        .entries copies_cloneTableRw descends_clonePdpt sparing_clonePdpt
      have third := entries cr3 (addrOf c) s₁ r s₂ (by rw [cAt]; exact highRun.ready tables free) low
      cases r with
      | none =>
          cases run
          exact second.trans third
      | some _ =>
          cases run
          exact second.trans third

theorem lowTable_walk (same : ∀ f, LowTable s.mem cr3 f → t.mem f = s.mem f) {q : List Nat}
    (path : Path 512 256 3 q) : tableAt next t.mem (frameOf cr3) q = tableAt next s.mem (frameOf cr3) q := by
  refine tableAt_congr fun q' i rest f split at_ => ?_
  rw [split] at path
  rw [same f ⟨q', path.left, at_⟩]

theorem LowTables.keep (tables : LowTables s cr3) (same : ∀ f, LowTable s.mem cr3 f → t.mem f = s.mem f) (bitmap : t.bitmap = s.bitmap) :
    LowTables t cr3 := by
  have walk {q : List Nat} (path : Path 512 256 3 q) := lowTable_walk same path
  refine ⟨tables.aligned, tables.bound, ⟨fun q q' f path path' at_ at' => ?_⟩, fun q f i g path at_ here => ?_, fun f low => ?_⟩
  · rw [walk path] at at_
    rw [walk path'] at at'
    exact tables.tree.unique q q' f path path' at_ at'
  · rw [walk path.left] at at_
    have kept := same f ⟨q, path.left, at_⟩
    rw [kept] at here ⊢
    exact tables.plain q f i g path at_ here
  · obtain ⟨q, path, at_⟩ := low
    rw [walk path] at at_
    rw [bitmap]
    exact tables.taken f ⟨q, path, at_⟩

end SwiftBSD.Proof.Mm
