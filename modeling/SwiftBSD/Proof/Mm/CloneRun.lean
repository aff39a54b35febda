import SwiftBSD.Proof.Mm.Clone

namespace SwiftBSD.Proof.Mm
open Lib SwiftBSD.Mm

variable {n d : Nat} {m t : Machine} {mem mem' : Mem} {p c f g : Nat} {cr3 child virt : UInt64}

/-- The table an entry points to, as the processor follows it. -/
def hwNext (e : UInt64) : Option Nat :=
  if e &&& pgPresent = 0 then none else if e &&& pgHuge ≠ 0 then none else some (tableOf e)

def LowTable (mem : Mem) (cr3 : UInt64) (f : Nat) : Prop :=
  ∃ q, Path 512 256 3 q ∧ tableAt next mem (frameOf cr3) q = some f

/-- A table that is only used for the high half. -/
def HighTable (mem : Mem) (cr3 : UInt64) (f : Nat) : Prop :=
  ∃ i q, 256 ≤ i ∧ i < 512 ∧ Path 512 512 2 q ∧ tableAt hwNext mem (frameOf cr3) (i :: q) = some f

/-- Table entries in the first `n` entries of `p` and below. -/
def Plains (n d : Nat) (mem : Mem) (p : Nat) : Prop :=
  ∀ q f i g, Path 512 n d (q ++ [i]) → tableAt next mem p q = some f → next (mem f i) = some g → Plain (mem f i)

/-- An address space whose low half is as `setup_paging` and `get_or_alloc_table` build it: a tree of frames in use. -/
structure LowTables (m : Machine) (cr3 : UInt64) : Prop where
  aligned : cr3.toNat % 4096 = 0
  bound : cr3.toNat < 2 ^ 52
  tree : Tree next m.mem 512 256 3 (frameOf cr3)
  plain : Plains 256 3 m.mem (frameOf cr3)
  taken : ∀ f, LowTable m.mem cr3 f → m.bitmap f = true

/-- The tables of the high half are in use too, and none of them is a page table of the low half. -/
structure UserTables (m : Machine) (cr3 : UInt64) : Prop extends LowTables m cr3 where
  highTaken : ∀ f, HighTable m.mem cr3 f → m.bitmap f = true
  apart : ∀ f, HighTable m.mem cr3 f → ¬PtOf 256 3 m.mem (frameOf cr3) f

theorem index_lt (d : Nat) (virt : UInt64) : index d virt < 512 := by
  have small (x : UInt64) : (x &&& 0x1FF).toNat < 512 := by
    rw [UInt64.toNat_and]
    exact Nat.lt_of_le_of_lt Nat.and_le_right (by decide)
  unfold index
  split <;> exact small _

theorem Plains.sub {i : Nat} (plains : Plains n (d+1) mem p) (bound : i < n) (here : next (mem p i) = some g) :
    Plains 512 d mem g := by
  intro q f j g' path at_ next_
  exact plains (i :: q) f j g' (.cons bound path) (by rw [tableAt_cons here, at_]) next_

theorem translateFrom_zero : translateFrom mem virt 0 p =
    if mem p (index 0 virt) &&& pgPresent = 0 then none else some (leafAt 0 (mem p (index 0 virt)) virt) := rfl

theorem translateFrom_succ : translateFrom mem virt (d+1) p =
    if mem p (index (d+1) virt) &&& pgPresent = 0 then none
    else if mem p (index (d+1) virt) &&& pgHuge ≠ 0 then
      if d < 2 then some (leafAt (d+1) (mem p (index (d+1) virt)) virt) else none
    else (translateFrom mem virt d (tableOf (mem p (index (d+1) virt)))).map
      (·.restrict (mem p (index (d+1) virt))) := rfl

def stopAt (d : Nat) (e virt : UInt64) : Option Translation :=
  if e &&& pgPresent = 0 then none else if d < 2 then some (leafAt (d+1) e virt) else none

theorem translateFrom_stop (stop : next (mem p (index (d+1) virt)) = none) :
    translateFrom mem virt (d+1) p = stopAt d (mem p (index (d+1) virt)) virt := by
  rw [translateFrom_succ]
  unfold stopAt
  unfold next at stop
  split at stop
  · next absent => simp [absent]
  · next present =>
      split at stop
      · next huge => simp [present, huge]
      · cases stop

theorem translateFrom_table (table : next (mem p (index (d+1) virt)) = some f) (plain : Plain (mem p (index (d+1) virt))) :
    translateFrom mem virt (d+1) p = translateFrom mem virt d f := by
  unfold next at table
  split at table
  · cases table
  · next present =>
      split at table
      · cases table
      · next small =>
          obtain rfl := Option.some.inj table
          rw [translateFrom_succ, if_neg present, if_neg small, plain.tableOf]
          cases translateFrom mem virt d (frameOf (mem p (index (d+1) virt))) with
          | none => rfl
          | some t => exact congrArg some (plain.restrict t)

theorem stopAt_present (d : Nat) (e virt : UInt64) :
    stopAt d (if e &&& pgPresent = 0 then 0 else e) virt = stopAt d e virt := by
  by_cases absent : e &&& pgPresent = 0
  · simp [stopAt, absent]
  · simp [absent]

theorem stopAt_cowPage (d : Nat) (e virt : UInt64) : (stopAt d e virt).map cowPage = stopAt d e virt := by
  unfold stopAt
  split
  · rfl
  split
  · simp [cowPage, leafAt]
  · rfl

theorem translate_copy (plains : Plains n d mem p) (copy : Copy n d mem mem' p c) (small : index d virt < n) :
    translateFrom mem' virt d c = (translateFrom mem virt d p).map cowPage := by
  induction d generalizing n p c with
  | zero =>
      have entry := copy (index 0 virt) small
      rw [translateFrom_zero, translateFrom_zero, entry]
      unfold cowCopy
      by_cases absent : mem p (index 0 virt) &&& pgPresent = 0
      · simp [absent]
      · simp [absent, cow_present, leafAt_cow]
  | succ d ih =>
      have entry := copy (index (d+1) virt) small
      cases here : next (mem p (index (d+1) virt)) with
      | none =>
          rw [here] at entry
          have stop : next (mem' c (index (d+1) virt)) = none := by
            rw [entry]
            split
            · rfl
            · exact here
          rw [translateFrom_stop here, translateFrom_stop stop, entry, stopAt_present, stopAt_cowPage]
      | some f =>
          rw [here] at entry
          obtain ⟨g, bound, entry, below⟩ := entry
          have plain := plains [] p _ f (.cons small .nil) rfl here
          rw [translateFrom_table here plain, translateFrom_table (f := g) (by rw [entry, next_tableEntry bound])
            (by rw [entry]; exact plain_tableEntry bound)]
          exact ih (plains.sub small here) below (index_lt d virt)

theorem translate_marked (plains : Plains n d mem p) (small : index d virt < n)
    (upper : ∀ q f, Path 512 n d q → q.length < d → tableAt next mem p q = some f → mem' f = mem f)
    (pts : ∀ f, PtOf n d mem p f → mem' f = cowTable (mem f)) :
    translateFrom mem' virt d p = (translateFrom mem virt d p).map cowPage := by
  induction d generalizing n p with
  | zero =>
      have entry : mem' p (index 0 virt) = cow (mem p (index 0 virt)) := by
        rw [pts p ⟨[], .nil, rfl, rfl⟩, cowTable, if_pos (index_lt 0 virt)]
      rw [translateFrom_zero, translateFrom_zero, entry, cow_present]
      by_cases absent : mem p (index 0 virt) &&& pgPresent = 0
      · simp [absent]
      · simp [absent, leafAt_cow]
  | succ d ih =>
      have root := upper [] p .nil (Nat.succ_pos d) rfl
      cases here : next (mem p (index (d+1) virt)) with
      | none =>
          rw [translateFrom_stop here, translateFrom_stop (by rw [root]; exact here), root, stopAt_cowPage]
      | some f =>
          have plain := plains [] p _ f (.cons small .nil) rfl here
          rw [translateFrom_table here plain, translateFrom_table (f := f) (by rw [root]; exact here)
            (by rw [root]; exact plain)]
          refine ih (plains.sub small here) (index_lt d virt) (fun q g path short at_ => ?_) fun g pt => ?_
          · exact upper (_ :: q) g (.cons small path) (Nat.succ_lt_succ short) (by rw [tableAt_cons here, at_])
          · exact pts g (pt.cons small here)

theorem translate_same (frames : ∀ q f, Path 512 512 d q → tableAt hwNext mem p q = some f → mem' f = mem f) :
    translateFrom mem' virt d p = translateFrom mem virt d p := by
  induction d generalizing p with
  | zero =>
      rw [translateFrom_zero, translateFrom_zero, frames [] p .nil rfl]
  | succ d ih =>
      rw [translateFrom_succ, translateFrom_succ, frames [] p .nil rfl]
      split
      · rfl
      split
      · rfl
      · next present small =>
          have here : hwNext (mem p (index (d+1) virt)) = some (tableOf (mem p (index (d+1) virt))) := by
            unfold hwNext
            rw [if_neg present, if_neg small]
          rw [ih fun q f path at_ => frames (_ :: q) f (.cons (index_lt (d+1) virt) path) (by rw [tableAt_cons here, at_])]

structure CloneMarked (m t : Machine) (p : Nat) : Prop where
  grows : ∀ f, m.bitmap f = true → t.bitmap f = true
  old : ∀ f, m.bitmap f = true → t.mem f = m.mem f ∨ PtOf 256 3 m.mem p f ∧ t.mem f = cowTable (m.mem f)

structure CloneRun (m t : Machine) (p c : Nat) : Prop extends CloneMarked m t p where
  bound : c ≤ maxPages
  pts : ∀ f, PtOf 256 3 m.mem p f → t.mem f = cowTable (m.mem f)
  copy : Copy 256 3 m.mem t.mem p c
  high : ∀ i, 256 ≤ i → i < 512 → t.mem c i = m.mem p i
  fresh : ∀ q f, Path 512 256 3 q → tableAt next t.mem c q = some f → m.bitmap f = false ∧ t.bitmap f = true
  tree : Tree next t.mem 512 256 3 c

/-- The new PML4, with the high half of the parent's. -/
structure HighRun (m s : Machine) (p c : Nat) : Prop where
  bitmap : s.bitmap = Function.update m.bitmap c true
  other : ∀ h, h ≠ c → s.mem h = m.mem h
  high : ∀ i, 256 ≤ i → i < 512 → s.mem c i = m.mem p i

theorem highHalf_run {s u : Machine} (bound : c ≤ maxPages) (differ : frameOf cr3 ≠ c)
    (bitmap : s.bitmap = Function.update m.bitmap c true) (mem : ∀ h, h ≠ c → s.mem h = m.mem h)
    (run : (forRange (highEntry cr3 (addrOf c)) 256 256).run s = some ((), u)) :
    HighRun m u (frameOf cr3) c := by
  have result := forRange_run (fun j u => u.bitmap = s.bitmap ∧ (∀ h, h ≠ c → u.mem h = s.mem h) ∧
    ∀ i, 256 ≤ i → i < j → u.mem c i = s.mem (frameOf cr3) i)
    ⟨rfl, fun _ _ => rfl, fun i lower upper => by omega⟩ ?_ run
  · obtain ⟨same, other, high⟩ := result
    refine ⟨same.trans bitmap, fun h differs => (other h differs).trans (mem h differs), fun i lower upper => ?_⟩
    rw [high i lower upper, mem _ differ]
  · rintro j u v - - ⟨same, other, high⟩ step
    unfold highEntry at step
    rw [run_bind_some (x := word _ _) rfl] at step
    rw [setWord_run step, frameOf_addrOf bound]
    refine ⟨same, fun h differs => (setEntry_other differs).trans (other h differs), fun i lower upper => ?_⟩
    rw [setEntry_same, Function.update_apply]
    split
    · next here => rw [here, other _ differ]
    · exact high i lower (by omega)

section HighRun
variable {s : Machine} (tables : LowTables m cr3) (free : m.bitmap c = false) (highRun : HighRun m s (frameOf cr3) c)
include tables free

theorem LowTables.ne_new (low : LowTable m.mem cr3 f) : f ≠ c := by
  rintro rfl
  rw [tables.taken f low] at free
  cases free

include highRun

theorem HighRun.tableAt_eq {q : List Nat} (path : Path 512 256 3 q) :
    tableAt next s.mem (frameOf cr3) q = tableAt next m.mem (frameOf cr3) q := by
  refine tableAt_congr fun q' i rest f split at_ => ?_
  rw [split] at path
  rw [highRun.other f (tables.ne_new free ⟨q', path.left, at_⟩)]

theorem HighRun.ptOf : PtOf 256 3 s.mem (frameOf cr3) f ↔ PtOf 256 3 m.mem (frameOf cr3) f := by
  constructor
  · rintro ⟨q, path, length, at_⟩
    rw [highRun.tableAt_eq tables free path] at at_
    exact ⟨q, path, length, at_⟩
  · rintro ⟨q, path, length, at_⟩
    rw [← highRun.tableAt_eq tables free path] at at_
    exact ⟨q, path, length, at_⟩

omit tables free in
theorem HighRun.grows (used : m.bitmap f = true) : s.bitmap f = true := by
  rw [highRun.bitmap, Function.update_apply]
  split
  · rfl
  · exact used

theorem HighRun.ready : Ready 256 3 s (frameOf cr3) c where
  tree := by
    refine ⟨fun q q' f path path' at_ at' => ?_⟩
    rw [highRun.tableAt_eq tables free path] at at_
    rw [highRun.tableAt_eq tables free path'] at at'
    exact tables.tree.unique q q' f path path' at_ at'
  taken := by
    intro q f path at_
    rw [highRun.tableAt_eq tables free path] at at_
    have low : LowTable m.mem cr3 f := ⟨q, path, at_⟩
    exact ⟨highRun.grows (tables.taken f low), tables.ne_new free low⟩
  child := by rw [highRun.bitmap, Function.update_self]

theorem HighRun.old (marked : Marked 256 3 s t (frameOf cr3) c) (used : m.bitmap f = true) :
    t.mem f = m.mem f ∨ PtOf 256 3 m.mem (frameOf cr3) f ∧ t.mem f = cowTable (m.mem f) := by
  have differ : f ≠ c := by
    rintro rfl
    rw [used] at free
    cases free
  have result := marked.old f (highRun.grows used) differ
  rw [highRun.other f differ, highRun.ptOf tables free] at result
  exact result

theorem HighRun.cloned (bound : c ≤ maxPages) (cloned : Cloned 256 3 s t (frameOf cr3) c) :
    CloneRun m t (frameOf cr3) c where
  bound := bound
  grows := fun f used => cloned.grows f (highRun.grows used)
  old := fun f used => highRun.old tables free cloned.toMarked used
  pts := by
    intro f pt
    have pt' := (highRun.ptOf tables free).mpr pt
    obtain ⟨q, path, -, at_⟩ := pt
    rw [cloned.pts f pt', highRun.other f (tables.ne_new free ⟨q, path, at_⟩)]
  copy := cloned.copy.base (fun q h path at_ => .inl (highRun.other h (tables.ne_new free ⟨q, path, at_⟩))) (by omega)
  high := fun i lower upper => by rw [cloned.rest i lower, highRun.high i lower upper]
  fresh := by
    intro q f path at_
    by_cases empty : q = []
    · subst empty
      obtain rfl := Option.some.inj at_
      exact ⟨free, cloned.grows c (by rw [highRun.bitmap, Function.update_self])⟩
    · obtain ⟨free', taken⟩ := cloned.fresh q f path empty at_
      refine ⟨?_, taken⟩
      cases used : m.bitmap f with
      | false => rfl
      | true => exact (highRun.grows used).symm.trans free'
  tree := cloned.tree

end HighRun

theorem vmmClonePml4_run (tables : LowTables m cr3) (run : (vmmClonePml4 cr3).run m = some (child, t)) :
    (child = 0 ∧ CloneMarked m t (frameOf cr3)) ∨
    ∃ c, child = addrOf c ∧ addrOf c ≠ 0 ∧ CloneRun m t (frameOf cr3) c := by
  unfold vmmClonePml4 at run
  obtain ⟨a, s, alloc, run⟩ := run_bind_eq_some.mp run
  cases vmmAllocPage_run alloc with
  | none mem grows =>
      cases run
      exact .inl ⟨rfl, grows, fun f _ => .inl (by rw [mem])⟩
  | @took c _ nonzero bound free bitmap mem =>
      rw [if_neg nonzero] at run
      obtain ⟨_, s₁, high, run⟩ := run_bind_eq_some.mp run
      obtain ⟨r, s₂, low, run⟩ := run_bind_eq_some.mp run
      have differ : frameOf cr3 ≠ c := tables.ne_new free ⟨[], .nil, rfl⟩
      have highRun := highHalf_run bound differ bitmap mem high
      have cAt := frameOf_addrOf bound
      have entries : Descends 256 3 (cloneEntries (cloneTableRw · true) clonePdpt 256) :=
        .entries copies_cloneTableRw descends_clonePdpt
      have result := entries cr3 (addrOf c) s₁ r s₂ (by rw [cAt]; exact highRun.ready tables free) low
      rw [cAt] at result
      cases r with
      | none =>
          cases run
          exact .inr ⟨c, rfl, nonzero, highRun.cloned tables free bound result⟩
      | some _ =>
          cases run
          exact .inl ⟨rfl, fun f used => result.grows f (highRun.grows used), fun f used => highRun.old tables free result used⟩

end SwiftBSD.Proof.Mm
