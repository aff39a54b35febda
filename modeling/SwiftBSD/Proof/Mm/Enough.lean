import SwiftBSD.Proof.Mm.CloneRun
import Mathlib.Algebra.BigOperators.Intervals
import Mathlib.Algebra.Order.BigOperators.Group.Finset

namespace SwiftBSD.Proof.Mm
open Lib SwiftBSD.Mm

variable {n d : Nat} {m s t : Machine} {mem mem' : Mem} {p c f g : Nat} {cr3 parent child a : UInt64}

def freeFrames (m : Machine) : Finset Nat := (Finset.range m.lastPhysPage).filter fun i => m.bitmap i = false

/-- The number of tables below the first `n` entries of `p`. -/
def tablesBelow (mem : Mem) : Nat → Nat → Nat → Nat
  | _, 0, _ => 0
  | n, d+1, p => ∑ i ∈ Finset.range n, match next (mem p i) with
      | none => 0
      | some f => 1 + tablesBelow mem 512 d f

theorem tablesBelow_congr (same : ∀ q f i, Path 512 n d q → tableAt next mem p q = some f → next (mem' f i) = next (mem f i)) :
    tablesBelow mem' n d p = tablesBelow mem n d p := by
  induction d generalizing n p with
  | zero => rfl
  | succ d ih =>
      unfold tablesBelow
      refine Finset.sum_congr rfl fun i small => ?_
      rw [same [] p i .nil rfl]
      cases here : next (mem p i) with
      | none => rfl
      | some f =>
          dsimp only
          rw [ih fun q g j path at_ => same (i :: q) g j (.cons (Finset.mem_range.mp small) path) (by rw [tableAt_cons here, at_])]

def last (m : Machine) : Nat := m.lastPhysPage

theorem keeps_setWord (phys : UInt64) (i : Nat) (e : UInt64) : Keeps last (setWord phys i e) := .modify fun _ => rfl

theorem keeps_word (phys : UInt64) (i : Nat) : Keeps last (word phys i) := .bind .get fun _ => .pure _

theorem keeps_pageAlloc : Keeps last pageAlloc := by
  intro m a t run
  cases pageAlloc_run run with
  | none => rfl
  | took => rfl

theorem keeps_vmmAllocPage : Keeps last vmmAllocPage := by
  refine .bind keeps_pageAlloc fun phys => ?_
  split
  · exact .pure _
  · exact .bind (.forRange (fun i => keeps_setWord _ i _) 0 512) fun _ => .pure _

theorem keeps_cowEntry (parent child : UInt64) (i : Nat) : Keeps last (cowEntry parent child i) := by
  refine .bind (keeps_word _ _) fun e => ?_
  split
  · exact keeps_setWord _ _ _
  split
  · exact .bind (keeps_setWord _ _ _) fun _ => keeps_setWord _ _ _
  · exact keeps_setWord _ _ _

theorem keeps_clonePtCow (parent : UInt64) : Keeps last (clonePtCow parent) := by
  refine .bind keeps_vmmAllocPage fun child => ?_
  split
  · exact .pure _
  · exact .bind (.forRange (fun i => keeps_cowEntry _ _ i) 0 512) fun _ => .pure _

theorem keeps_rwEntry (parent child : UInt64) (user : Bool) (i : Nat) : Keeps last (rwEntry parent child user i) := by
  refine .bind (keeps_word _ _) fun e => ?_
  split
  · exact keeps_setWord _ _ _
  split
  · exact keeps_setWord _ _ _
  · exact keeps_setWord _ _ _

theorem keeps_cloneTableRw (parent : UInt64) (user : Bool) : Keeps last (cloneTableRw parent user) := by
  refine .bind keeps_vmmAllocPage fun child => ?_
  split
  · exact .pure _
  · exact .bind (.forRange (fun i => keeps_rwEntry _ _ _ i) 0 512) fun _ => .pure _

theorem addrOf_ne_zero (bound : g ≤ maxPages) (nonzero : g ≠ 0) : addrOf g ≠ 0 := by
  intro zero
  have value := toNat_addrOf bound
  rw [zero] at value
  change 0 = 4096 * g at value
  omega

theorem card_take (page : t.lastPhysPage = m.lastPhysPage) (bitmap : t.bitmap = Function.update m.bitmap g true) : (freeFrames m).card ≤ (freeFrames t).card + 1 := by
  have erased : freeFrames t = (freeFrames m).erase g := by
    ext i
    unfold freeFrames
    simp only [Finset.mem_filter, Finset.mem_erase, page, bitmap, Function.update_apply]
    by_cases same : i = g
    · simp [same]
    · simp [same]
  rw [erased]
  have := Finset.pred_card_le_card_erase (s := freeFrames m) (a := g)
  omega

theorem pageAlloc_succeeds (reserved : m.bitmap 0 = true) (some_ : 0 < (freeFrames m).card) :
    ∃ a t, pageAlloc.run m = some (a, t) ∧ a ≠ 0 := by
  obtain ⟨i, member⟩ := Finset.card_pos.mp some_
  obtain ⟨small, free⟩ := Finset.mem_filter.mp member
  cases found : firstFrom (fun i => !m.bitmap i) 0 m.lastPhysPage with
  | none =>
      have used := firstFrom_none.mp found i (Nat.zero_le i) (by rw [Nat.zero_add]; exact Finset.mem_range.mp small)
      simp [free] at used
  | some g =>
      obtain ⟨-, upper, taken, -⟩ := firstFrom_some found
      have bounded := m.bounded
      refine ⟨addrOf g, { m with bitmap := Function.update m.bitmap g true, freePageCount := m.freePageCount - 1 }, ?_,
        addrOf_ne_zero (by omega) ?_⟩
      · unfold pageAlloc
        rw [run_bind_some (x := get) rfl, found]
        rfl
      · rintro rfl
        simp [reserved] at taken

theorem setWord_total (phys : UInt64) (i : Nat) (e : UInt64) (s : Machine) : ∃ t, (setWord phys i e).run s = some ((), t) :=
  ⟨_, rfl⟩

theorem vmmAllocPage_succeeds (reserved : m.bitmap 0 = true) (some_ : 0 < (freeFrames m).card) :
    ∃ a t, vmmAllocPage.run m = some (a, t) ∧ a ≠ 0 := by
  obtain ⟨a, s, alloc, nonzero⟩ := pageAlloc_succeeds reserved some_
  obtain ⟨t, zero⟩ := forRange_total (fun i => setWord_total a i 0) 0 512 s
  refine ⟨a, t, ?_, nonzero⟩
  unfold vmmAllocPage
  rw [run_bind_some alloc, if_neg nonzero, run_bind_some zero]
  rfl

theorem rwEntry_total (parent child : UInt64) (user : Bool) (i : Nat) (s : Machine) :
    ∃ t, (rwEntry parent child user i).run s = some ((), t) := by
  unfold rwEntry
  rw [run_bind_some (x := word _ _) rfl]
  split
  · exact setWord_total _ _ _ _
  split
  · exact setWord_total _ _ _ _
  · exact setWord_total _ _ _ _

theorem cloneTableRw_succeeds {user : Bool} (reserved : m.bitmap 0 = true) (some_ : 0 < (freeFrames m).card) :
    ∃ a t, (cloneTableRw parent user).run m = some (a, t) ∧ a ≠ 0 := by
  obtain ⟨a, s, alloc, nonzero⟩ := vmmAllocPage_succeeds reserved some_
  obtain ⟨t, copy⟩ := forRange_total (rwEntry_total parent a user) 0 512 s
  refine ⟨a, t, ?_, nonzero⟩
  unfold cloneTableRw
  rw [run_bind_some alloc, if_neg nonzero, run_bind_some copy]
  rfl

theorem cowEntry_total (parent child : UInt64) (i : Nat) (s : Machine) : ∃ t, (cowEntry parent child i).run s = some ((), t) := by
  unfold cowEntry
  rw [run_bind_some (x := word _ _) rfl]
  split
  · exact setWord_total _ _ _ _
  split
  · rw [run_bind_some (x := setWord _ _ _) rfl]
    exact setWord_total _ _ _ _
  · exact setWord_total _ _ _ _

theorem clonePtCow_succeeds (reserved : m.bitmap 0 = true) (some_ : 0 < (freeFrames m).card) :
    ∃ a t, (clonePtCow parent).run m = some (a, t) ∧ a ≠ 0 := by
  obtain ⟨a, s, alloc, nonzero⟩ := vmmAllocPage_succeeds reserved some_
  obtain ⟨t, copy⟩ := forRange_total (cowEntry_total parent a) 0 512 s
  refine ⟨a, t, ?_, nonzero⟩
  unfold clonePtCow
  rw [run_bind_some alloc, if_neg nonzero, run_bind_some copy]
  rfl

/-- A loop over a table at depth `d` ends well, and takes one frame for each table below. -/
def Succeeds (n d : Nat) (descend : UInt64 → UInt64 → MmM (Option Unit)) : Prop :=
  ∀ parent child m, Ready n d m (frameOf parent) (frameOf child) → m.bitmap 0 = true →
    tablesBelow m.mem n d (frameOf parent) ≤ (freeFrames m).card →
    ∃ t, (descend parent child).run m = some (none, t) ∧ t.lastPhysPage = m.lastPhysPage ∧
      (freeFrames m).card ≤ (freeFrames t).card + tablesBelow m.mem n d (frameOf parent)

theorem succeeds_clonePt : Succeeds 512 0 clonePt := by
  intro parent child m ready _ _
  obtain ⟨t, copy⟩ := forRange_total (cowEntry_total parent child) 0 512 m
  have page : t.lastPhysPage = m.lastPhysPage := (Keeps.forRange (fun i => keeps_cowEntry parent child i) 0 512) m () t copy
  have cowed := cowEntries_run rfl rfl (ready.taken [] _ .nil rfl).2 copy
  have same : freeFrames t = freeFrames m := by
    unfold freeFrames
    rw [page, cowed.bitmap]
  refine ⟨t, ?_, page, by rw [same]; exact Nat.le_add_right _ _⟩
  unfold clonePt
  rw [run_bind_some copy]
  rfl

theorem freeFrames_setEntry (m : Machine) (f i : Nat) (e : UInt64) : freeFrames (setEntry m f i e) = freeFrames m := rfl

theorem tablesBelow_succ {j : Nat} (here : next (mem p j) = some f) :
    tablesBelow mem (j+1) (d+1) p = tablesBelow mem j (d+1) p + (tablesBelow mem 512 d f + 1) := by
  rw [tablesBelow, tablesBelow, Finset.sum_range_succ, here]
  exact congrArg _ (Nat.add_comm _ _)

theorem tablesBelow_mono {j : Nat} (le : j ≤ n) : tablesBelow mem j (d+1) p ≤ tablesBelow mem n (d+1) p := by
  rw [tablesBelow, tablesBelow]
  exact Finset.sum_le_sum_of_subset (Finset.range_mono le)

theorem Succeeds.entries {copy : UInt64 → MmM UInt64} {descend : UInt64 → UInt64 → MmM (Option Unit)}
    (copies : Copies d copy) (descends : Descends 512 d descend) (succeeds : Succeeds 512 d descend)
    (keeps : ∀ parent, Keeps last (copy parent))
    (total : ∀ parent m, m.bitmap 0 = true → 0 < (freeFrames m).card → ∃ a t, (copy parent).run m = some (a, t) ∧ a ≠ 0) :
    Succeeds n (d+1) (cloneEntries copy descend n) := by
  intro parent child m ready reserved enough
  have result := @searchM_total _ _ (cloneEntry copy descend parent child)
    (fun j s => Cloned j (d+1) m s (frameOf parent) (frameOf child) ∧ s.lastPhysPage = m.lastPhysPage ∧
      (freeFrames m).card ≤ (freeFrames s).card + tablesBelow m.mem j (d+1) (frameOf parent)) 0 n m
    ⟨.start m d _ _, rfl, Nat.le_add_right _ _⟩ ?_
  · obtain ⟨t, run, -, page, count⟩ := result
    rw [Nat.zero_add] at count
    exact ⟨t, run, page, count⟩
  · rintro j s - upper ⟨before, page, count⟩
    have bound : j < n := by omega
    have more : tablesBelow m.mem (j+1) (d+1) (frameOf parent) ≤ tablesBelow m.mem n (d+1) (frameOf parent) :=
      tablesBelow_mono bound
    have up : tablesBelow m.mem j (d+1) (frameOf parent) ≤ tablesBelow m.mem (j+1) (d+1) (frameOf parent) :=
      tablesBelow_mono (Nat.le_succ j)
    have entry := congrFun (ready.parent before.toMarked (Nat.le_of_lt bound)) j
    -- the iteration runs to its end; what it does is known
    have finish (t : Machine) (run : (cloneEntry copy descend parent child j).run s = some (none, t))
        (page' : t.lastPhysPage = m.lastPhysPage)
        (count' : (freeFrames m).card ≤ (freeFrames t).card + tablesBelow m.mem (j+1) (d+1) (frameOf parent)) :
        ∃ t, (cloneEntry copy descend parent child j).run s = some (none, t) ∧
          Cloned (j+1) (d+1) m t (frameOf parent) (frameOf child) ∧ t.lastPhysPage = m.lastPhysPage ∧
          (freeFrames m).card ≤ (freeFrames t).card + tablesBelow m.mem (j+1) (d+1) (frameOf parent) :=
      ⟨t, run, cloneEntry_run copies descends ready bound before run, page', count'⟩
    by_cases absent : m.mem (frameOf parent) j &&& pgPresent = 0
    · refine finish (setEntry s (frameOf child) j 0) ?_ page (by rw [freeFrames_setEntry]; omega)
      unfold cloneEntry
      rw [run_bind_some (x := word _ _) rfl, entry, if_pos absent]
      rfl
    by_cases huge : m.mem (frameOf parent) j &&& pgHuge ≠ 0
    · refine finish (setEntry s (frameOf child) j (m.mem (frameOf parent) j)) ?_ page (by rw [freeFrames_setEntry]; omega)
      unfold cloneEntry
      rw [run_bind_some (x := word _ _) rfl, entry, if_neg absent, if_pos huge]
      rfl
    · have table : next (m.mem (frameOf parent) j) = some (frameOf (m.mem (frameOf parent) j &&& pageMask)) := by
        unfold next
        rw [if_neg absent, if_neg huge, frameOf_pageMask]
      have below : Below d j m.mem (frameOf parent) (frameOf (m.mem (frameOf parent) j &&& pageMask)) :=
        ⟨_, [], table, .nil, rfl⟩
      have used := before.grows _ (ready.below bound below).1
      have next_ := tablesBelow_succ (d := d) table
      obtain ⟨a, s₁, copying, nonzero⟩ := total (m.mem (frameOf parent) j &&& pageMask) s (before.grows 0 reserved) (by omega)
      rcases copies _ s a s₁ used copying with ⟨zero, -⟩ | ⟨g, rfl, -, copied⟩
      · exact (nonzero zero).elim
      have page₁ : s₁.lastPhysPage = s.lastPhysPage := keeps _ s _ s₁ copying
      have count₁ := card_take page₁ copied.bitmap
      have gAt := frameOf_addrOf copied.bound
      have ready' := copied.readyBelow ready bound before table
      have same : tablesBelow (setEntry s₁ (frameOf child) j (tableEntry g)).mem 512 d
          (frameOf (m.mem (frameOf parent) j &&& pageMask)) =
          tablesBelow m.mem 512 d (frameOf (m.mem (frameOf parent) j &&& pageMask)) := by
        refine tablesBelow_congr fun q f i path at_ => ?_
        rcases copied.below ready bound before ⟨_, q, table, path, at_⟩ with equal | ⟨-, -, marked⟩
        · rw [equal]
        · rw [marked, next_cowTable]
      obtain ⟨t, run, page₂, count₂⟩ := succeeds (m.mem (frameOf parent) j &&& pageMask) (addrOf g)
        (setEntry s₁ (frameOf child) j (tableEntry g)) (by rw [gAt]; exact ready')
        (copied.grows (before.grows 0 reserved)) (by rw [same, freeFrames_setEntry]; omega)
      rw [same, freeFrames_setEntry] at count₂
      refine finish t ?_ (page₂.trans (page₁.trans page)) (by omega)
      unfold cloneEntry
      rw [run_bind_some (x := word _ _) rfl, entry, if_neg absent, if_neg huge, run_bind_some copying, if_neg nonzero,
        run_bind_some (x := setWord _ _ _) rfl]
      exact run

theorem succeeds_clonePd : Succeeds 512 1 clonePd :=
  .entries copies_clonePtCow descends_clonePt succeeds_clonePt keeps_clonePtCow fun _ _ => clonePtCow_succeeds

theorem succeeds_clonePdpt : Succeeds 512 2 clonePdpt :=
  .entries copies_cloneTableRw descends_clonePd succeeds_clonePd (fun _ => keeps_cloneTableRw _ _) fun _ _ =>
    cloneTableRw_succeeds

theorem highEntry_total (cr3 child : UInt64) (i : Nat) (s : Machine) : ∃ t, (highEntry cr3 child i).run s = some ((), t) :=
  ⟨_, rfl⟩

theorem keeps_highEntry (cr3 child : UInt64) (i : Nat) : Keeps last (highEntry cr3 child i) :=
  .bind (keeps_word _ _) fun _ => keeps_setWord _ _ _

theorem vmmClonePml4_succeeds (tables : LowTables m cr3) (reserved : m.bitmap 0 = true)
    (enough : tablesBelow m.mem 256 3 (frameOf cr3) < (freeFrames m).card) :
    ∃ child t, (vmmClonePml4 cr3).run m = some (child, t) ∧ child ≠ 0 := by
  obtain ⟨a, s, alloc, nonzero⟩ := vmmAllocPage_succeeds reserved (by omega)
  cases vmmAllocPage_run alloc with
  | none => exact (nonzero rfl).elim
  | @took c _ _ bound free bitmap mem =>
      have page : s.lastPhysPage = m.lastPhysPage := keeps_vmmAllocPage m _ s alloc
      have differ : frameOf cr3 ≠ c := tables.ne_new free ⟨[], .nil, rfl⟩
      obtain ⟨u, high⟩ := forRange_total (highEntry_total cr3 (addrOf c)) 256 256 s
      have highRun := highHalf_run bound differ bitmap mem high
      have page' : u.lastPhysPage = m.lastPhysPage :=
        (Keeps.forRange (fun i => keeps_highEntry cr3 (addrOf c) i) 256 256 s () u high).trans page
      have count := card_take page' highRun.bitmap
      have same : tablesBelow u.mem 256 3 (frameOf cr3) = tablesBelow m.mem 256 3 (frameOf cr3) :=
        tablesBelow_congr fun q f i path at_ => by rw [highRun.other f (tables.ne_new free ⟨q, path, at_⟩)]
      have cAt := frameOf_addrOf bound
      have entries : Succeeds 256 3 (cloneEntries (cloneTableRw · true) clonePdpt 256) :=
        .entries copies_cloneTableRw descends_clonePdpt succeeds_clonePdpt (fun _ => keeps_cloneTableRw _ _) fun _ _ =>
          cloneTableRw_succeeds
      obtain ⟨t, low, -⟩ := entries cr3 (addrOf c) u (by rw [cAt]; exact highRun.ready tables free)
        (highRun.grows reserved) (by rw [same]; omega)
      refine ⟨addrOf c, t, ?_, nonzero⟩
      unfold vmmClonePml4
      rw [run_bind_some alloc, if_neg nonzero, run_bind_some high, run_bind_some low]
      rfl

end SwiftBSD.Proof.Mm
