import SwiftBSD.Proof.Mm.Tables

namespace SwiftBSD.Proof.Mm
open Lib SwiftBSD.Mm

variable {n d j : Nat} {m s s₁ t : Machine} {p c f g h : Nat} {q : List Nat}

/-- A new table `g`, for the copy of table `f`. A page table is marked at once. -/
structure Copied (d : Nat) (s t : Machine) (f g : Nat) : Prop where
  bound : g ≤ maxPages
  free : s.bitmap g = false
  bitmap : t.bitmap = Function.update s.bitmap g true
  mem : ∀ h, h ≠ g → t.mem h = s.mem h ∨ d = 0 ∧ h = f ∧ t.mem h = cowTable (s.mem h)

def setEntry (m : Machine) (f i : Nat) (e : UInt64) : Machine :=
  { m with mem := Function.update m.mem f (Function.update (m.mem f) i e) }

theorem setEntry_other {i : Nat} {e : UInt64} (other : h ≠ f) : (setEntry m f i e).mem h = m.mem h :=
  Function.update_of_ne other _ _

theorem setEntry_same {i : Nat} {e : UInt64} : (setEntry m f i e).mem f = Function.update (m.mem f) i e :=
  Function.update_self _ _ _

def Below (d j : Nat) (mem : Mem) (p h : Nat) : Prop :=
  ∃ f q, next (mem p j) = some f ∧ Path 512 512 d q ∧ tableAt next mem f q = some h

/-- From `s` to `t` only tables below entry `j`, table `c` and new frames are written. -/
structure Advanced (d j : Nat) (m s t : Machine) (p c : Nat) : Prop where
  grows : ∀ h, s.bitmap h = true → t.bitmap h = true
  same : ∀ h, s.bitmap h = true → h ≠ c → ¬Below d j m.mem p h → t.mem h = s.mem h
  below : ∀ h, Below d j m.mem p h →
    t.mem h = m.mem h ∨ PtOf (j+1) (d+1) m.mem p h ∧ t.mem h = cowTable (m.mem h)

/-- The copy of table `f`, in frames that were free in `s`. -/
structure NewTree (d : Nat) (m s t : Machine) (f g : Nat) : Prop where
  bound : g ≤ maxPages
  copy : Copy 512 d m.mem t.mem f g
  tree : Tree next t.mem 512 512 d g
  fresh : ∀ q h, Path 512 512 d q → tableAt next t.mem g q = some h → s.bitmap h = false ∧ t.bitmap h = true

structure Extended (d j : Nat) (m s t : Machine) (p c : Nat) : Prop extends Advanced d j m s t p c where
  pts : ∀ f h, next (m.mem p j) = some f → PtOf 512 d m.mem f h → t.mem h = cowTable (m.mem h)
  entries : ∀ i, i ≠ j → t.mem c i = s.mem c i
  absent : next (m.mem p j) = none → t.mem c j = if m.mem p j &&& pgPresent = 0 then 0 else m.mem p j
  table : ∀ f, next (m.mem p j) = some f → ∃ g, t.mem c j = tableEntry g ∧ NewTree d m s t f g

theorem Ready.below (ready : Ready n (d+1) m p c) (bound : j < n) (below : Below d j m.mem p h) :
    m.bitmap h = true ∧ h ≠ c := by
  obtain ⟨f, q, here, path, at_⟩ := below
  exact ready.taken (j :: q) h (.cons bound path) (by rw [tableAt_cons here, at_])

theorem Ready.not_below (ready : Ready n (d+1) m p c) (bound : j < n) (pt : PtOf j (d+1) m.mem p h) :
    ¬Below d j m.mem p h := by
  rintro ⟨f, q, here, path, at_⟩
  obtain ⟨i, g, before, here', q', path', -, at'⟩ := pt.uncons
  have := ready.tree.apart bound here path at_ (by omega) here' path' at'
  omega

theorem Marked.advance (before : Marked j (d+1) m s p c)
    (step : Advanced d j m s t p c) : Marked (j+1) (d+1) m t p c := by
  refine ⟨fun f used => step.grows f (before.grows f used), fun h used other => ?_⟩
  by_cases below : Below d j m.mem p h
  · exact step.below h below
  · rw [step.same h (before.grows h used) other below]
    exact (before.old h used other).imp_right fun changed => ⟨changed.1.grow (Nat.le_succ j), changed.2⟩

section Extend
variable (ready : Ready n (d+1) m p c) (bound : j < n) (before : Cloned j (d+1) m s p c) (step : Extended d j m s t p c)
include ready bound before step

omit before in
theorem Extended.kept (free : m.bitmap h = false) (taken : s.bitmap h = true) : t.mem h = s.mem h := by
  refine step.same h taken (fun same => ?_) fun below => ?_
  · rw [same, ready.child] at free
    cases free
  · rw [(ready.below bound below).1] at free
    cases free

theorem Extended.earlier (path : Path 512 j (d+1) q) : tableAt next t.mem c q = tableAt next s.mem c q := by
  refine tableAt_congr fun q' i rest f split at_ => ?_
  rw [split] at path
  cases q' with
  | nil =>
      obtain rfl := Option.some.inj at_
      cases path with
      | cons small _ => rw [step.entries i (Nat.ne_of_lt small)]
  | cons i' q' =>
      obtain ⟨free, taken⟩ := before.fresh _ f path.left (by simp) at_
      rw [step.kept ready bound free taken]

theorem Extended.route (path : Path 512 (j+1) (d+1) q) (nonempty : q ≠ []) (at_ : tableAt next t.mem c q = some h) :
    (Path 512 j (d+1) q ∧ tableAt next s.mem c q = some h) ∨
    ∃ f g rest, q = j :: rest ∧ next (t.mem c j) = some g ∧ Path 512 512 d rest ∧ NewTree d m s t f g ∧
      tableAt next t.mem g rest = some h := by
  cases path with
  | nil => exact (nonempty rfl).elim
  | @cons _ _ i rest small path =>
      by_cases earlier : i < j
      · have path' : Path 512 j (d+1) (i :: rest) := .cons earlier path
        rw [step.earlier ready bound before path'] at at_
        exact .inl ⟨path', at_⟩
      · obtain rfl : i = j := by omega
        obtain ⟨g', here, at_⟩ := tableAt_cons_some at_
        cases parent : next (m.mem p i) with
        | none =>
            have entry := step.absent parent
            have none' : next (t.mem c i) = none := by
              rw [entry]
              split
              · rfl
              · exact parent
            rw [none'] at here
            cases here
        | some f =>
            obtain ⟨g, entry, new⟩ := step.table f parent
            have leads := here
            rw [entry, next_tableEntry new.bound] at here
            obtain rfl := Option.some.inj here
            exact .inr ⟨f, g, rest, rfl, leads, path, new, at_⟩

theorem Extended.fresh (path : Path 512 (j+1) (d+1) q) (nonempty : q ≠ []) (at_ : tableAt next t.mem c q = some h) :
    m.bitmap h = false ∧ t.bitmap h = true := by
  rcases step.route ready bound before path nonempty at_ with ⟨path', at'⟩ | ⟨f, g, rest, -, -, path', new, at'⟩
  · obtain ⟨free, taken⟩ := before.fresh q h path' nonempty at'
    exact ⟨free, step.grows h taken⟩
  · obtain ⟨free, taken⟩ := new.fresh rest h path' at'
    refine ⟨?_, taken⟩
    cases used : m.bitmap h with
    | false => rfl
    | true =>
        rw [before.grows h used] at free
        cases free

theorem Extended.tree : Tree next t.mem 512 (j+1) (d+1) c := by
  refine ⟨fun q q' h path path' at_ at' => ?_⟩
  -- `c` itself was in use before any of its tables was
  have root {q : List Nat} (path : Path 512 (j+1) (d+1) q) (nonempty : q ≠ []) : tableAt next t.mem c q ≠ some c := by
    intro at_
    have := (step.fresh ready bound before path nonempty at_).1
    rw [ready.child] at this
    cases this
  by_cases empty : q = []
  · subst empty
    obtain rfl := Option.some.inj at_
    by_contra differ
    exact root path' (Ne.symm differ) at'
  by_cases empty' : q' = []
  · subst empty'
    obtain rfl := Option.some.inj at'
    exact (root path empty at_).elim
  rcases step.route ready bound before path empty at_ with ⟨old, oldAt⟩ | ⟨f, g, rest, rfl, leads, below, new, newAt⟩
  · rcases step.route ready bound before path' empty' at' with ⟨old', oldAt'⟩ | ⟨f', g', rest', rfl, leads', below', new', newAt'⟩
    · exact before.tree.unique q q' h old old' oldAt oldAt'
    · have taken := (before.fresh q h old empty oldAt).2
      rw [(new'.fresh rest' h below' newAt').1] at taken
      cases taken
  · rcases step.route ready bound before path' empty' at' with ⟨old', oldAt'⟩ | ⟨f', g', rest', rfl, leads', below', new', newAt'⟩
    · have taken := (before.fresh q' h old' empty' oldAt').2
      rw [(new.fresh rest h below newAt).1] at taken
      cases taken
    · obtain rfl := Option.some.inj (leads.symm.trans leads')
      rw [new.tree.unique rest rest' h below below' newAt newAt']

theorem Cloned.extend : Cloned (j+1) (d+1) m t p c where
  toMarked := before.toMarked.advance step.toAdvanced
  pts := by
    intro h pt
    obtain ⟨i, f, small, here, below⟩ := pt.uncons
    by_cases earlier : i < j
    · have pt' : PtOf j (d+1) m.mem p h := below.cons earlier here
      obtain ⟨q, path, -, at_⟩ := pt'
      obtain ⟨used, other⟩ := ready.taken q h (path.grow (by omega)) at_
      rw [step.same h (before.grows h used) other (ready.not_below bound (below.cons earlier here))]
      exact before.pts h (below.cons earlier here)
    · obtain rfl : i = j := by omega
      exact step.pts f h here below
  copy := by
    intro i small
    by_cases earlier : i < j
    · have entry := before.copy i earlier
      rw [step.entries i (Nat.ne_of_lt earlier)]
      cases here : next (m.mem p i) with
      | none =>
          rw [here] at entry
          exact entry
      | some f =>
          rw [here] at entry
          obtain ⟨g, le, entry, copy⟩ := entry
          refine ⟨g, le, entry, copy.keep fun q h path at_ => ?_⟩
          have at' : tableAt next s.mem c (i :: q) = some h := by
            rw [tableAt_cons (by rw [entry, next_tableEntry le]), at_]
          obtain ⟨free, taken⟩ := before.fresh (i :: q) h (.cons earlier path) (by simp) at'
          exact step.kept ready bound free taken
    · obtain rfl : i = j := by omega
      cases here : next (m.mem p i) with
      | none => exact step.absent here
      | some f =>
          obtain ⟨g, entry, new⟩ := step.table f here
          exact ⟨g, new.bound, entry, new.copy⟩
  fresh := fun q g path nonempty at_ => step.fresh ready bound before path nonempty at_
  tree := step.tree ready bound before
  rest := fun i le => by rw [step.entries i (by omega), before.rest i (by omega)]

end Extend

theorem extended_leaf (leaf : next (m.mem p j) = none) :
    Extended d j m s (setEntry s c j (if m.mem p j &&& pgPresent = 0 then 0 else m.mem p j)) p c where
  grows := fun _ used => used
  same := fun h _ other _ => setEntry_other other
  below := by
    rintro h ⟨f, q, here, -⟩
    rw [leaf] at here
    cases here
  pts := fun f h here => by
    rw [leaf] at here
    cases here
  entries := fun i other => by
    rw [setEntry_same, Function.update_of_ne other]
  absent := fun _ => by rw [setEntry_same, Function.update_self]
  table := fun f here => by
    rw [leaf] at here
    cases here

section Table
variable (ready : Ready n (d+1) m p c) (bound : j < n) (before : Cloned j (d+1) m s p c)
  (here : next (m.mem p j) = some f) (copied : Copied d s s₁ f g)
include ready bound before here copied

omit here in
theorem Copied.below (below : Below d j m.mem p h) :
    (setEntry s₁ c j (tableEntry g)).mem h = m.mem h ∨
    d = 0 ∧ h = f ∧ (setEntry s₁ c j (tableEntry g)).mem h = cowTable (m.mem h) := by
  obtain ⟨used, other⟩ := ready.below bound below
  have old : h ≠ g := by
    rintro rfl
    have := before.grows h used
    rw [copied.free] at this
    cases this
  have same : s.mem h = m.mem h := by
    obtain ⟨f', q, here', path, at_⟩ := below
    exact ready.later before.toMarked bound here' path at_
  rw [setEntry_other other, ← same]
  exact copied.mem h old

omit ready bound before in
theorem Copied.other (used : s.bitmap h = true) (other : h ≠ c) (apart : ¬Below d j m.mem p h) :
    (setEntry s₁ c j (tableEntry g)).mem h = s.mem h := by
  rw [setEntry_other other]
  refine (copied.mem h ?_).resolve_right fun marked => ?_
  · rintro rfl
    rw [copied.free] at used
    cases used
  · exact apart ⟨f, [], here, .nil, by rw [marked.2.1]; rfl⟩

theorem Copied.tableAt_eq (path : Path 512 512 d q) :
    tableAt next (setEntry s₁ c j (tableEntry g)).mem f q = tableAt next m.mem f q := by
  refine tableAt_congr fun q' i rest h split at_ => ?_
  rw [split] at path
  rcases copied.below ready bound before ⟨f, q', here, path.left, at_⟩ with same | ⟨-, -, marked⟩
  · rw [same]
  · rw [marked, next_cowTable]

theorem Copied.ptOf : PtOf 512 d (setEntry s₁ c j (tableEntry g)).mem f h ↔ PtOf 512 d m.mem f h := by
  unfold PtOf
  constructor
  · rintro ⟨q, path, length, at_⟩
    rw [copied.tableAt_eq ready bound before here path] at at_
    exact ⟨q, path, length, at_⟩
  · rintro ⟨q, path, length, at_⟩
    rw [← copied.tableAt_eq ready bound before here path] at at_
    exact ⟨q, path, length, at_⟩

omit ready bound before here in
theorem Copied.grows (used : s.bitmap h = true) : s₁.bitmap h = true := by
  rw [copied.bitmap]
  by_cases same : h = g
  · rw [same, Function.update_self]
  · rw [Function.update_of_ne same, used]

theorem Copied.readyBelow : Ready 512 d (setEntry s₁ c j (tableEntry g)) f g where
  tree := by
    refine ⟨fun q q' h path path' at_ at' => ?_⟩
    rw [copied.tableAt_eq ready bound before here path] at at_
    rw [copied.tableAt_eq ready bound before here path'] at at'
    exact (ready.tree.sub bound here).unique q q' h path path' at_ at'
  taken := by
    intro q h path at_
    rw [copied.tableAt_eq ready bound before here path] at at_
    have used := before.grows h (ready.below bound ⟨f, q, here, path, at_⟩).1
    refine ⟨copied.grows used, ?_⟩
    rintro rfl
    rw [copied.free] at used
    cases used
  child := by
    change s₁.bitmap g = true
    rw [copied.bitmap, Function.update_self]

theorem Copied.advanced (marked : Marked 512 d (setEntry s₁ c j (tableEntry g)) t f g) : Advanced d j m s t p c where
  grows := fun h used => marked.grows h (copied.grows used)
  same := by
    intro h used other apart
    have same := copied.other here used other apart
    rw [← same]
    refine (marked.old h (copied.grows used) ?_).resolve_right fun changed => ?_
    · rintro rfl
      rw [copied.free] at used
      cases used
    · obtain ⟨q, path, -, at_⟩ := (copied.ptOf ready bound before here).mp changed.1
      exact apart ⟨f, q, here, path, at_⟩
  below := by
    intro h below
    obtain ⟨used, other⟩ := ready.below bound below
    have taken := before.grows h used
    have old : h ≠ g := by
      rintro rfl
      rw [copied.free] at taken
      cases taken
    have first := copied.below ready bound before below
    rcases marked.old h (copied.grows taken) old with same | ⟨pt, changed⟩
    · rw [same]
      refine first.imp_right fun ⟨zero, root, changed⟩ => ⟨?_, changed⟩
      subst zero root
      exact PtOf.cons (Nat.lt_succ_self j) here ⟨[], .nil, rfl, rfl⟩
    · refine .inr ⟨PtOf.cons (Nat.lt_succ_self j) here ((copied.ptOf ready bound before here).mp pt), ?_⟩
      rw [changed]
      rcases first with same | ⟨-, -, same⟩
      · rw [same]
      · rw [same, cowTable_cowTable]

theorem Copied.child (marked : Marked 512 d (setEntry s₁ c j (tableEntry g)) t f g) :
    t.mem c = Function.update (s.mem c) j (tableEntry g) := by
  have taken := before.grows c ready.child
  have old : c ≠ g := by
    rintro rfl
    rw [copied.free] at taken
    cases taken
  have apart : ¬Below d j m.mem p c := fun below => (ready.below bound below).2 rfl
  have first : s₁.mem c = s.mem c := by
    refine (copied.mem c old).resolve_right fun changed => apart ⟨f, [], here, .nil, ?_⟩
    rw [changed.2.1]
    rfl
  rw [← first, ← setEntry_same]
  refine (marked.old c (copied.grows taken) old).resolve_right fun changed => ?_
  obtain ⟨q, path, -, at_⟩ := (copied.ptOf ready bound before here).mp changed.1
  exact apart ⟨f, q, here, path, at_⟩

theorem Copied.extended (cloned : Cloned 512 d (setEntry s₁ c j (tableEntry g)) t f g) : Extended d j m s t p c where
  toAdvanced := copied.advanced ready bound before here cloned.toMarked
  pts := by
    intro f' h here' pt
    obtain rfl := Option.some.inj (here.symm.trans here')
    rw [cloned.pts h ((copied.ptOf ready bound before here).mpr pt)]
    obtain ⟨q, path, -, at_⟩ := pt
    rcases copied.below ready bound before ⟨f, q, here, path, at_⟩ with same | ⟨-, -, same⟩
    · rw [same]
    · rw [same, cowTable_cowTable]
  entries := by
    intro i other
    rw [copied.child ready bound before here cloned.toMarked, Function.update_of_ne other]
  absent := by
    intro none
    rw [here] at none
    cases none
  table := by
    intro f' here'
    obtain rfl := Option.some.inj (here.symm.trans here')
    refine ⟨g, ?_, copied.bound, cloned.copy.base (fun q h path at_ => ?_) (Nat.le_refl _), cloned.tree, fun q h path at_ => ?_⟩
    · rw [copied.child ready bound before here cloned.toMarked, Function.update_self]
    · refine (copied.below ready bound before ⟨f, q, here, path, at_⟩).imp_right fun ⟨zero, _, changed⟩ => ⟨?_, changed⟩
      have := path.length_le
      omega
    · by_cases empty : q = []
      · subst empty
        obtain rfl := Option.some.inj at_
        refine ⟨copied.free, cloned.grows g ?_⟩
        change s₁.bitmap g = true
        rw [copied.bitmap, Function.update_self]
      · obtain ⟨free, taken⟩ := cloned.fresh q h path empty at_
        refine ⟨?_, taken⟩
        cases used : s.bitmap h with
        | false => rfl
        | true => exact (copied.grows used).symm.trans free

end Table

end SwiftBSD.Proof.Mm
