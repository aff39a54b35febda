import SwiftBSD.Proof.Mm.Count
import SwiftBSD.Proof.Mm.Split

namespace SwiftBSD.Proof.Mm
open Lib SwiftBSD.Mm

variable {n d k : Nat} {m s t u : Machine} {mem mem' : Mem} {p f g h i j : Nat} {q : List Nat} {cr3 virt virt' e a parent : UInt64}
  {user : Bool}

def newTable (e : UInt64) (j : Nat) : UInt64 := if e &&& pgPresent = 0 then 0 else splitEntry e j

inductive TableStep (s : Machine) (f i : Nat) (user : Bool) : UInt64 → Machine → Prop
  | full (empty : freeFrames s = ∅) (blank : next (s.mem f i) = none) : TableStep s f i user 0 s
  | there {a : UInt64} {g : Nat} (leads : next (s.mem f i) = some g) (here : frameOf a = g) : TableStep s f i user a s
  | made {g : Nat} {t : Machine} (blank : next (s.mem f i) = none) (bound : g < s.lastPhysPage) (free : s.bitmap g = false)
      (cr3 : t.cr3 = s.cr3) (last : t.lastPhysPage = s.lastPhysPage) (bitmap : t.bitmap = Function.update s.bitmap g true)
      (contents : ∀ j, j < 512 → g ≠ f → t.mem g j = newTable (s.mem f i) j)
      (entry : t.mem f = Function.update (s.mem f) i (newEntry user g))
      (other : ∀ h, h ≠ f → h ≠ g → t.mem h = s.mem h) : TableStep s f i user (addrOf g) t

theorem fill_run {fill : Nat → UInt64} {phys : UInt64} (run : (forRange (fun i => setWord phys i (fill i)) 0 n).run s = some ((), t)) :
    t.cr3 = s.cr3 ∧ t.lastPhysPage = s.lastPhysPage ∧ t.bitmap = s.bitmap ∧ (∀ h, h ≠ frameOf phys → t.mem h = s.mem h) ∧
    ∀ j, t.mem (frameOf phys) j = if j < n then fill j else s.mem (frameOf phys) j := by
  have done := forRange_run (fun k u => u.cr3 = s.cr3 ∧ u.lastPhysPage = s.lastPhysPage ∧ u.bitmap = s.bitmap ∧
    (∀ h, h ≠ frameOf phys → u.mem h = s.mem h) ∧
    ∀ j, u.mem (frameOf phys) j = if j < k then fill j else s.mem (frameOf phys) j)
    ⟨rfl, rfl, rfl, fun _ _ => rfl, fun j => (if_neg (by omega)).symm⟩ ?_ run
  · rwa [Nat.zero_add] at done
  rintro k u v - - ⟨cr3, last, bitmap, other, words⟩ step
  rw [setWord_run step]
  refine ⟨cr3, last, bitmap, fun h differs => (setEntry_other differs).trans (other h differs), fun j => ?_⟩
  rw [setEntry_same, Function.update_apply]
  split
  · next same => rw [same, if_pos (by omega)]
  · next differs =>
      rw [words j]
      by_cases below : j < k
      · rw [if_pos below, if_pos (by omega)]
      · rw [if_neg below, if_neg (by omega)]

theorem Alloc.bounded {g : Nat} (small : g < s.lastPhysPage) : g ≤ maxPages := small.le.trans s.bounded

theorem TableStep.link {c : Nat → UInt64} {v w : Machine} (blank : next (s.mem f i) = none) (taken : s.bitmap f = true)
    (small : g < s.lastPhysPage) (free : s.bitmap g = false) (cr3 : v.cr3 = s.cr3) (last : v.lastPhysPage = s.lastPhysPage)
    (bitmap : v.bitmap = Function.update s.bitmap g true) (other : ∀ h, h ≠ g → v.mem h = s.mem h)
    (filled : (forRange (fun i => setWord (addrOf g) i (c i)) 0 512).run v = some ((), w))
    (contents : ∀ j, c j = newTable (s.mem f i) j) : TableStep s f i user (addrOf g) (setEntry w f i (newEntry user g)) := by
  have at_ : frameOf (addrOf g) = g := frameOf_addrOf (Alloc.bounded small)
  have differ : f ≠ g := by
    rintro rfl
    rw [taken] at free
    cases free
  obtain ⟨cr3', last', bitmap', other', words⟩ := fill_run filled
  rw [at_] at other' words
  refine .made blank small free (cr3'.trans cr3) (last'.trans last) (bitmap'.trans bitmap) (fun j bound _ => ?_) ?_
    fun h notParent notNew => ?_
  · rw [setEntry_other differ.symm, words j, if_pos bound, contents]
  · rw [setEntry_same, other' f differ, other f differ]
  · rw [setEntry_other notParent, other' h notNew, other h notNew]

theorem getOrAllocTable_step {isPd : Bool}
    (small : isPd = false → s.mem (frameOf parent) i &&& pgPresent ≠ 0 → s.mem (frameOf parent) i &&& pgHuge = 0)
    (reserved : s.bitmap 0 = true) (taken : s.bitmap (frameOf parent) = true)
    (run : (getOrAllocTable parent i isPd user).run s = some (a, t)) : TableStep s (frameOf parent) i user a t := by
  unfold getOrAllocTable at run
  rw [run_bind_some (x := word _ _) rfl] at run
  have nonzero {g : Nat} (below : g < s.lastPhysPage) (free : s.bitmap g = false) : addrOf g ≠ 0 := by
    refine addrOf_ne_zero (Alloc.bounded below) ?_
    rintro rfl
    rw [reserved] at free
    cases free
  split at run
  · next present =>
      split at run
      · next huge =>
          have blank : next (s.mem (frameOf parent) i) = none := by
            unfold next
            rw [if_neg present, if_pos huge.2]
          obtain ⟨pt, u, alloc, run⟩ := run_bind_eq_some.mp run
          cases pageAlloc_alloc alloc with
          | none empty =>
              obtain ⟨rfl, rfl⟩ := pure_run run
              exact .full empty blank
          | @took g below free =>
              rw [if_neg (nonzero below free)] at run
              obtain ⟨_, v, zero, run⟩ := run_bind_eq_some.mp run
              obtain ⟨_, w, fill, run⟩ := run_bind_eq_some.mp run
              obtain ⟨_, x, link, run⟩ := run_bind_eq_some.mp run
              obtain ⟨rfl, rfl⟩ := pure_run run
              rw [setWord_run link]
              obtain ⟨cr3, last, bitmap, other, -⟩ := fill_run zero
              rw [frameOf_addrOf (Alloc.bounded below)] at other
              refine .link blank taken below free cr3 last bitmap other fill fun j => ?_
              unfold newTable
              rw [if_neg present]
              rfl
      · next notHuge =>
          obtain ⟨rfl, rfl⟩ := pure_run run
          refine .there (g := frameOf (s.mem (frameOf parent) i)) ?_ frameOf_pageMask
          unfold next
          rw [if_neg present, if_neg]
          intro huge
          cases isPd with
          | true => exact notHuge ⟨rfl, huge⟩
          | false => exact huge (small rfl present)
  · next absent =>
      have blank : next (s.mem (frameOf parent) i) = none := by
        unfold next
        rw [if_pos (not_not.mp absent)]
      obtain ⟨paddr, u, alloc, run⟩ := run_bind_eq_some.mp run
      cases pageAlloc_alloc alloc with
      | none empty =>
          obtain ⟨rfl, rfl⟩ := pure_run run
          exact .full empty blank
      | @took g below free =>
          rw [if_neg (nonzero below free)] at run
          obtain ⟨_, v, zero, run⟩ := run_bind_eq_some.mp run
          obtain ⟨_, w, link, run⟩ := run_bind_eq_some.mp run
          obtain ⟨rfl, rfl⟩ := pure_run run
          rw [setWord_run link]
          refine .link (c := fun _ => 0) blank taken below free ?_ ?_ ?_ ?_ zero fun j => ?_
          · rfl
          · rfl
          · rfl
          · exact fun _ _ => rfl
          unfold newTable
          rw [if_pos (not_not.mp absent)]

theorem FullTables.fresh (tables : FullTables s cr3) (free : s.bitmap g = false) {p : List Nat} (path : Path 512 512 3 p) :
    tableAt next s.mem (frameOf cr3) p ≠ some g := by
  intro at_
  rw [(tables.taken p g path at_).1] at free
  cases free

/-- Entry `i` of table `f` has got a new table. -/
structure Linked (s t : Machine) (cr3 : UInt64) (q : List Nat) (f i g : Nat) : Prop
    extends Grown next s.mem t.mem 512 3 (frameOf cr3) q f i g where
  short : q.length ≤ 2
  path : Path 512 512 3 (q ++ [i])
  free : s.bitmap g = false
  bound : g ≤ maxPages
  nonzero : g ≠ 0
  bitmap : t.bitmap = Function.update s.bitmap g true
  contents : ∀ j, j < 512 → t.mem g j = newTable (s.mem f i) j
  isNew : t.mem f i = newEntry (decide ((q ++ [i]).headD 0 < 256)) g

def Access.inHalf (user : Bool) (a : Access) : Access := { a with user := user && a.user }

section Grow
variable (tables : FullTables s cr3) (linked : Linked s t cr3 q f i g)
include tables linked

theorem Linked.tableAt_iff {p : List Nat} (path : Path 512 512 3 p) : tableAt next t.mem (frameOf cr3) p = some h ↔
    tableAt next s.mem (frameOf cr3) p = some h ∨ p = q ++ [i] ∧ h = g :=
  tables.tree.tableAt_grown linked.path (fun _ => tables.fresh linked.free) linked.toGrown (Nat.le_refl _) path

theorem Linked.entry_same {p : List Nat} {f' i' : Nat} (path : Path 512 512 3 p) (old : tableAt next s.mem (frameOf cr3) p = some f')
    (other : ¬(f' = f ∧ i' = i)) : t.mem f' i' = s.mem f' i' := by
  refine linked.same f' i' ?_ (by tauto)
  rintro rfl
  exact tables.fresh linked.free path old

theorem Linked.zero (upper : q.length < 2) (small : j < 512) : t.mem g j = 0 := by
  have notHuge := tables.small q f i linked.path upper linked.here
  rw [linked.contents j small]
  unfold newTable
  rw [if_pos]
  by_contra present
  have blank := linked.blank
  unfold next at blank
  rw [if_neg present, if_neg (by simp [notHuge])] at blank
  cases blank

theorem Linked.fullTables : FullTables t cr3 where
  aligned := tables.aligned
  bound := tables.bound
  tree := tables.tree.grow linked.path (fun _ => tables.fresh linked.free) linked.toGrown (Nat.le_refl _)
  entries := by
    intro q' f' i' g' path' at_ leads
    rcases (linked.tableAt_iff tables path'.left).mp at_ with old | ⟨rfl, rfl⟩
    · by_cases here : f' = f ∧ i' = i
      · obtain ⟨rfl, rfl⟩ := here
        obtain rfl := tables.tree.unique q' q f' path'.left linked.path.left old linked.here
        rw [linked.isNew]
        exact tableEntry_newEntry linked.bound
      · rw [linked.entry_same tables path'.left old here] at leads ⊢
        exact tables.entries q' f' i' g' path' old leads
    · have length := path'.length_le
      simp only [List.length_append, List.length_singleton] at length
      rw [linked.empty (by omega) i' (path'.snoc_lt (Nat.le_refl _))] at leads
      cases leads
  small := by
    intro q' f' i' path' upper at_
    rcases (linked.tableAt_iff tables path'.left).mp at_ with old | ⟨rfl, rfl⟩
    · by_cases here : f' = f ∧ i' = i
      · obtain ⟨rfl, rfl⟩ := here
        exact (next_some linked.entry).2.1
      · rw [linked.entry_same tables path'.left old here]
        exact tables.small q' f' i' path' upper old
    · simp only [List.length_append, List.length_singleton] at upper
      rw [linked.zero tables (by omega) (path'.snoc_lt (Nat.le_refl _))]
      rfl
  taken := by
    intro q' f' path' at_
    rw [linked.bitmap, Function.update_apply]
    rcases (linked.tableAt_iff tables path').mp at_ with old | ⟨-, rfl⟩
    · obtain ⟨used, notZero⟩ := tables.taken q' f' path' old
      exact ⟨by rw [used, ite_self], notZero⟩
    · exact ⟨if_pos rfl, linked.nonzero⟩

theorem Linked.meaning (virt : UInt64) : (translate t.mem cr3 virt).map Translation.access =
    (translate s.mem cr3 virt).map Translation.access := by
  rw [tables.translate_walk, (linked.fullTables tables).translate_walk]
  have fresh : ∀ p, Path 512 512 3 p → tableAt next s.mem (frameOf cr3) p ≠ some g := fun _ => tables.fresh linked.free
  by_cases through : (routeFrom 3 virt).take (q.length + 1) = q ++ [i]
  · obtain ⟨before, after⟩ := walk_grown_here tables.tree linked.short linked.path fresh linked.toGrown through
    rw [before, after, linked.contents _ (index_lt _ _)]
    by_cases present : s.mem f i &&& pgPresent = 0
    · unfold leaf newTable
      simp [present]
    · have low : q.length = 2 := by
        by_contra upper
        have short := linked.short
        have zero := linked.zero tables (j := 0) (by omega) (by decide)
        rw [linked.contents 0 (by decide), newTable, if_neg present] at zero
        have still := (splitEntry_present (e := s.mem f i) (j := 0) (by decide)).not.mpr present
        rw [zero] at still
        exact still rfl
      have still := (splitEntry_present (e := s.mem f i) (index_lt 0 virt)).not.mpr present
      have halves (tr : Translation) (user : Bool) : Translation.access (Translation.inHalf user tr) =
        Access.inHalf user (Translation.access tr) := rfl
      unfold newTable
      rw [low, if_neg present]
      unfold leaf
      dsimp only
      rw [if_neg present, if_neg still, if_pos (by decide), if_pos (by decide)]
      dsimp only [Option.map_some]
      rw [halves, halves, access_split]
  · rw [walk_grown_other tables.tree linked.short linked.path fresh linked.toGrown through]

end Grow

def OnRoute (mem : Mem) (cr3 virt : UInt64) (h : Nat) : Prop :=
  ∃ j ≤ 3, tableAt next mem (frameOf cr3) ((routeFrom 3 virt).take j) = some h

/-- From `s` to `t`, only tables on the way to `virt` were made and written, and every address means what it meant. -/
structure Extends (s t : Machine) (cr3 virt : UInt64) : Prop where
  tables : FullTables t cr3
  register : t.cr3 = s.cr3
  last : t.lastPhysPage = s.lastPhysPage
  keeps : ∀ p h, Path 512 512 3 p → tableAt next s.mem (frameOf cr3) p = some h → tableAt next t.mem (frameOf cr3) p = some h
  adds : ∀ p h, Path 512 512 3 p → tableAt next t.mem (frameOf cr3) p = some h →
    tableAt next s.mem (frameOf cr3) p = some h ∨ s.bitmap h = false ∧ ∃ j ≤ 3, p = (routeFrom 3 virt).take j
  same : ∀ h, ¬OnRoute t.mem cr3 virt h → t.mem h = s.mem h
  grows : ∀ h, s.bitmap h = true → t.bitmap h = true
  bitmap : ∀ h, ¬OnRoute t.mem cr3 virt h → t.bitmap h = s.bitmap h
  meaning : ∀ virt', (translate t.mem cr3 virt').map Translation.access = (translate s.mem cr3 virt').map Translation.access

theorem Extends.refl (tables : FullTables s cr3) (virt : UInt64) : Extends s s cr3 virt where
  tables := tables
  register := rfl
  last := rfl
  keeps := fun _ _ _ at_ => at_
  adds := fun _ _ _ at_ => .inl at_
  same := fun _ _ => rfl
  grows := fun _ used => used
  bitmap := fun _ _ => rfl
  meaning := fun _ => rfl

theorem Extends.onRoute (more : Extends s t cr3 virt) (on : OnRoute s.mem cr3 virt h) : OnRoute t.mem cr3 virt h := by
  obtain ⟨j, small, at_⟩ := on
  exact ⟨j, small, more.keeps _ _ (path_take virt j) at_⟩

theorem Extends.trans (first : Extends s t cr3 virt) (second : Extends t u cr3 virt) : Extends s u cr3 virt where
  tables := second.tables
  register := second.register.trans first.register
  last := second.last.trans first.last
  keeps := fun p h path at_ => second.keeps p h path (first.keeps p h path at_)
  adds := by
    intro p h path at_
    rcases second.adds p h path at_ with old | ⟨free, route⟩
    · exact first.adds p h path old
    · refine .inr ⟨?_, route⟩
      by_contra used
      rw [first.grows h (by simpa using used)] at free
      cases free
  same := fun h off => (second.same h off).trans (first.same h fun on => off (second.onRoute on))
  grows := fun h used => second.grows h (first.grows h used)
  bitmap := fun h off => (second.bitmap h off).trans (first.bitmap h fun on => off (second.onRoute on))
  meaning := fun virt' => (second.meaning virt').trans (first.meaning virt')

theorem headD_take_route {j : Nat} : ((routeFrom 3 virt).take j ++ [index (3 - j) virt]).headD 0 = index 3 virt := by
  match j with
  | 0 => rfl
  | 1 => rfl
  | 2 => rfl
  | j + 3 => rfl

theorem TableStep.extends (tables : FullTables s cr3) (small : j < 3)
    (at_ : tableAt next s.mem (frameOf cr3) ((routeFrom 3 virt).take j) = some f)
    (step : TableStep s f (index (3 - j) virt) (decide (index 3 virt < 256)) a t) (reserved : s.bitmap 0 = true) (success : a ≠ 0) :
    Extends s t cr3 virt ∧ tableAt next t.mem (frameOf cr3) ((routeFrom 3 virt).take (j+1)) = some (frameOf a) ∧
    (freeFrames s).card ≤ (freeFrames t).card + 1 := by
  cases step with
  | full => exact (success rfl).elim
  | there leads here =>
      refine ⟨.refl tables virt, ?_, by omega⟩
      rw [take_route small, tableAt_snoc, at_, Option.bind_some, leads, here]
  | @made g _ blank bound free cr3' last bitmap contents entry other =>
      have path : Path 512 512 3 ((routeFrom 3 virt).take j ++ [index (3 - j) virt]) := by
        rw [← take_route small]
        exact path_take virt (j+1)
      have used : s.bitmap f = true := (tables.taken _ f path.left at_).1
      have differ : g ≠ f := by
        rintro rfl
        rw [used] at free
        cases free
      have bounded := Alloc.bounded bound
      have length : ((routeFrom 3 virt).take j).length = j := length_take_route small.le
      have linked : Linked s t cr3 ((routeFrom 3 virt).take j) f (index (3 - j) virt) g := {
        here := at_
        blank := blank
        entry := by rw [entry, Function.update_self, next_newEntry bounded]
        empty := by
          rw [length]
          intro upper k narrow
          have notHuge := tables.small _ f _ path (by rw [length]; omega) at_
          rw [contents k narrow differ]
          unfold newTable
          rw [if_pos]
          · rfl
          by_contra present
          unfold next at blank
          rw [if_neg present, if_neg (by simp [notHuge])] at blank
          cases blank
        same := by
          intro h k notNew elsewhere
          by_cases parent : h = f
          · subst parent
            rw [entry, Function.update_of_ne (by tauto)]
          · rw [other h parent notNew]
        short := by omega
        path := path
        free := free
        bound := bounded
        nonzero := by
          rintro rfl
          rw [reserved] at free
          cases free
        bitmap := bitmap
        contents := fun k narrow => contents k narrow differ
        isNew := by rw [entry, Function.update_self, headD_take_route] }
      have now : tableAt next t.mem (frameOf cr3) ((routeFrom 3 virt).take (j+1)) = some g :=
        (linked.tableAt_iff tables (path_take virt (j+1))).mpr (.inr ⟨take_route small, rfl⟩)
      have parentOn : OnRoute t.mem cr3 virt f :=
        ⟨j, by omega, (linked.tableAt_iff tables (path_take virt j)).mpr (.inl at_)⟩
      have newOn : OnRoute t.mem cr3 virt g := ⟨j + 1, by omega, now⟩
      refine ⟨?_, by rw [frameOf_addrOf bounded]; exact now, ?_⟩
      · exact {
          tables := linked.fullTables tables
          register := cr3'
          last := last
          keeps := fun p h path' old => (linked.tableAt_iff tables path').mpr (.inl old)
          adds := by
            intro p h path' at'
            rcases (linked.tableAt_iff tables path').mp at' with old | ⟨here, new⟩
            · exact .inl old
            · rw [new, here, ← take_route small]
              exact .inr ⟨free, j + 1, by omega, rfl⟩
          same := by
            intro h off
            refine other h ?_ ?_
            · rintro rfl
              exact off parentOn
            · rintro rfl
              exact off newOn
          grows := fun h used => by rw [bitmap, Function.update_apply, used, ite_self]
          bitmap := by
            intro h off
            rw [bitmap, Function.update_of_ne]
            rintro rfl
            exact off newOn
          meaning := linked.meaning tables }
      · exact card_take last bitmap

def SamePage (virt virt' : UInt64) : Prop := routeFrom 3 virt' = routeFrom 3 virt ∧ index 0 virt' = index 0 virt

theorem take_three : (routeFrom 3 virt).take 3 = routeFrom 3 virt := List.take_of_length_le (by rw [length_routeFrom])

section Entry
variable (tables : FullTables s cr3) (at_ : tableAt next s.mem (frameOf cr3) (routeFrom 3 virt) = some p)
include tables at_

theorem FullTables.tableAt_setEntry {q : List Nat} (path : Path 512 512 3 q) :
    tableAt next (setEntry s p i e).mem (frameOf cr3) q = tableAt next s.mem (frameOf cr3) q := by
  refine tableAt_congr fun q' i' rest f split before => ?_
  have length := path.length_le
  rw [split] at path length
  rw [setEntry_other]
  rintro rfl
  have same := tables.tree.unique q' (routeFrom 3 virt) f path.left (path_routeFrom (index_lt 3 virt)) before at_
  have three := length_routeFrom 3 virt
  rw [← same] at three
  simp only [List.length_append, List.length_cons] at length
  omega

theorem FullTables.upper {q : List Nat} (path : Path 512 512 3 (q ++ [i])) (here : tableAt next s.mem (frameOf cr3) q = some f) :
    f ≠ p := by
  rintro rfl
  have same := tables.tree.unique q (routeFrom 3 virt) f path.left (path_routeFrom (index_lt 3 virt)) here at_
  have three := length_routeFrom 3 virt
  have length := path.length_le
  rw [← same] at three
  simp only [List.length_append, List.length_singleton] at length
  omega

theorem FullTables.setEntry : FullTables (setEntry s p i e) cr3 where
  aligned := tables.aligned
  bound := tables.bound
  tree := by
    refine ⟨fun q q' f path path' here here' => ?_⟩
    rw [tables.tableAt_setEntry at_ path] at here
    rw [tables.tableAt_setEntry at_ path'] at here'
    exact tables.tree.unique q q' f path path' here here'
  entries := by
    intro q f j g path here leads
    rw [tables.tableAt_setEntry at_ path.left] at here
    rw [setEntry_other (tables.upper at_ path here)] at leads ⊢
    exact tables.entries q f j g path here leads
  small := by
    intro q f j path upper here
    rw [tables.tableAt_setEntry at_ path.left] at here
    rw [setEntry_other (tables.upper at_ path here)]
    exact tables.small q f j path upper here
  taken := by
    intro q f path here
    rw [tables.tableAt_setEntry at_ path] at here
    exact tables.taken q f path here

theorem walk_setEntry_here (same : SamePage virt virt') :
    walk (SwiftBSD.Proof.Mm.setEntry s p (index 0 virt) e).mem virt' 3 (frameOf cr3) = (0, e) := by
  have now : tableAt next (SwiftBSD.Proof.Mm.setEntry s p (index 0 virt) e).mem (frameOf cr3) ((routeFrom 3 virt').take 3) = some p := by
    rw [take_three, same.1, tables.tableAt_setEntry at_ (path_routeFrom (index_lt 3 virt)), at_]
  rw [walk_from now (Nat.le_refl _), Nat.sub_self, walk, setEntry_same, same.2, Function.update_self]

theorem walk_setEntry_other (other : ¬SamePage virt virt') :
    walk (SwiftBSD.Proof.Mm.setEntry s p (index 0 virt) e).mem virt' 3 (frameOf cr3) = walk s.mem virt' 3 (frameOf cr3) := by
  obtain ⟨j, h, small, here, ends, stops⟩ := walk_end s.mem virt' 3 (frameOf cr3)
  have now : tableAt next (SwiftBSD.Proof.Mm.setEntry s p (index 0 virt) e).mem (frameOf cr3) ((routeFrom 3 virt').take j) = some h := by
    rw [tables.tableAt_setEntry at_ (path_take virt' j), here]
  have same : (SwiftBSD.Proof.Mm.setEntry s p (index 0 virt) e).mem h (index (3 - j) virt') = s.mem h (index (3 - j) virt') := by
    by_cases table : h = p
    · subst table
      have equal := tables.tree.unique _ _ h (path_take virt' j) (path_routeFrom (index_lt 3 virt)) here at_
      have length := congrArg List.length equal
      rw [length_take_route small, length_routeFrom] at length
      subst length
      rw [take_three] at equal
      rw [setEntry_same, Function.update_of_ne]
      exact fun last => other ⟨equal, last⟩
    · rw [setEntry_other table]
  rw [walk_from now small, ends]
  cases depth : 3 - j with
  | zero =>
      rw [depth] at same
      rw [walk, same]
  | succ d =>
      rw [depth] at same stops
      rw [walk_stop, same]
      rw [same]
      exact stops (by omega)

end Entry

def pteOf (phys flags : UInt64) : UInt64 :=
  let e := phys &&& pageMask ||| pgPresent ||| flags &&& 0xFFF
  if flags &&& pgNx ≠ 0 then e ||| pgNx else e

/-- The page of `virt` is mapped by the entry `e`, and nothing else has changed its meaning. -/
structure Mapped (s t : Machine) (cr3 virt e : UInt64) : Prop where
  tables : FullTables t cr3
  register : t.cr3 = s.cr3
  last : t.lastPhysPage = s.lastPhysPage
  keeps : ∀ p h, Path 512 512 3 p → tableAt next s.mem (frameOf cr3) p = some h → tableAt next t.mem (frameOf cr3) p = some h
  adds : ∀ p h, Path 512 512 3 p → tableAt next t.mem (frameOf cr3) p = some h →
    tableAt next s.mem (frameOf cr3) p = some h ∨ s.bitmap h = false ∧ ∃ j ≤ 3, p = (routeFrom 3 virt).take j
  same : ∀ h, ¬OnRoute t.mem cr3 virt h → t.mem h = s.mem h
  grows : ∀ h, s.bitmap h = true → t.bitmap h = true
  bitmap : ∀ h, ¬OnRoute t.mem cr3 virt h → t.bitmap h = s.bitmap h
  entry : ∃ pt, tableAt next t.mem (frameOf cr3) (routeFrom 3 virt) = some pt ∧ t.mem pt (index 0 virt) = e
  here : ∀ virt', SamePage virt virt' → walk t.mem virt' 3 (frameOf cr3) = (0, e)
  others : ∀ virt', ¬SamePage virt virt' →
    (translate t.mem cr3 virt').map Translation.access = (translate s.mem cr3 virt').map Translation.access
  card : (freeFrames s).card ≤ (freeFrames t).card + 3

theorem card_pos_nonempty (some_ : 0 < (freeFrames s).card) : freeFrames s ≠ ∅ :=
  Finset.nonempty_iff_ne_empty.mp (Finset.card_pos.mp some_)

inductive RouteStep (s : Machine) (cr3 virt : UInt64) (j : Nat) : UInt64 → Machine → Prop
  | there {a : UInt64} {t : Machine} (nonzero : a ≠ 0) (more : Extends s t cr3 virt)
      (at_ : tableAt next t.mem (frameOf cr3) ((routeFrom 3 virt).take (j+1)) = some (frameOf a))
      (card : (freeFrames s).card ≤ (freeFrames t).card + 1) : RouteStep s cr3 virt j a t
  | full (empty : freeFrames s = ∅) (absent : tableAt next s.mem (frameOf cr3) ((routeFrom 3 virt).take (j+1)) = none) :
      RouteStep s cr3 virt j 0 s

theorem getOrAllocTable_route {isPd : Bool} (tables : FullTables s cr3) (small : j < 3) (level : isPd = decide (j = 2))
    (at_ : tableAt next s.mem (frameOf cr3) ((routeFrom 3 virt).take j) = some (frameOf parent)) (reserved : s.bitmap 0 = true)
    (run : (getOrAllocTable parent (index (3 - j) virt) isPd (decide (index 3 virt < 256))).run s = some (a, t)) :
    RouteStep s cr3 virt j a t := by
  have path : Path 512 512 3 ((routeFrom 3 virt).take j ++ [index (3 - j) virt]) := by
    rw [← take_route small]
    exact path_take virt (j+1)
  have length : ((routeFrom 3 virt).take j).length = j := length_take_route small.le
  have step := getOrAllocTable_step (fun notPd _ => tables.small _ _ _ path (by rw [length]; rw [notPd] at level; simp at level; omega) at_)
    reserved (tables.taken _ _ path.left at_).1 run
  have made (success : a ≠ 0) : RouteStep s cr3 virt j a t := by
    obtain ⟨more, now, card⟩ := step.extends tables small at_ reserved success
    exact .there success more now card
  cases step with
  | full empty blank =>
      refine .full empty ?_
      rw [take_route small, tableAt_snoc, at_, Option.bind_some, blank]
  | @there _ g leads here =>
      refine made ?_
      rintro rfl
      have next_ : tableAt next s.mem (frameOf cr3) ((routeFrom 3 virt).take (j+1)) = some g := by
        rw [take_route small, tableAt_snoc, at_, Option.bind_some, leads]
      exact (tables.taken _ g (path_take virt (j+1)) next_).2 here.symm
  | made blank bound free =>
      refine made (addrOf_ne_zero (Alloc.bounded bound) ?_)
      rintro rfl
      rw [reserved] at free
      cases free

theorem RouteStep.some (step : RouteStep s cr3 virt j a t) (some_ : 0 < (freeFrames s).card) :
    a ≠ 0 ∧ Extends s t cr3 virt ∧ tableAt next t.mem (frameOf cr3) ((routeFrom 3 virt).take (j+1)) = some (frameOf a) ∧
    (freeFrames s).card ≤ (freeFrames t).card + 1 := by
  cases step with
  | there nonzero more at_ card => exact ⟨nonzero, more, at_, card⟩
  | full empty => exact (card_pos_nonempty some_ empty).elim

theorem Extends.mapped (more : Extends s u cr3 virt) (at_ : tableAt next u.mem (frameOf cr3) (routeFrom 3 virt) = some p)
    (card : (freeFrames s).card ≤ (freeFrames u).card + 3) : Mapped s (setEntry u p (index 0 virt) e) cr3 virt e := by
  have walks {q : List Nat} (path : Path 512 512 3 q) := more.tables.tableAt_setEntry (i := index 0 virt) (e := e) at_ path
  have tables' : FullTables (setEntry u p (index 0 virt) e) cr3 := more.tables.setEntry at_
  have onRoute {h : Nat} : OnRoute (setEntry u p (index 0 virt) e).mem cr3 virt h ↔ OnRoute u.mem cr3 virt h := by
    unfold OnRoute
    simp only [walks (path_take virt _)]
  exact {
    tables := tables'
    register := more.register
    last := more.last
    keeps := fun p h path here => by rw [walks path]; exact more.keeps p h path here
    adds := fun p h path here => by rw [walks path] at here; exact more.adds p h path here
    same := by
      intro h off
      rw [onRoute] at off
      rw [setEntry_other, more.same h off]
      rintro rfl
      exact off ⟨3, Nat.le_refl _, by rw [take_three]; exact at_⟩
    grows := more.grows
    bitmap := fun h off => more.bitmap h fun on => off (onRoute.mpr on)
    entry := ⟨p, by rw [walks (path_routeFrom (index_lt 3 virt)), at_], by rw [setEntry_same, Function.update_self]⟩
    here := fun virt' same => walk_setEntry_here more.tables at_ same
    others := by
      intro virt' other
      rw [tables'.translate_walk, walk_setEntry_other more.tables at_ other, ← more.tables.translate_walk, more.meaning]
    card := card }

theorem vmmMapInCr3_mapped {phys flags : UInt64} (tables : FullTables s cr3) (reserved : s.bitmap 0 = true)
    (enough : 3 ≤ (freeFrames s).card) (run : (vmmMapInCr3 cr3 virt phys flags).run s = some ((), t)) :
    Mapped s t cr3 virt (pteOf phys flags) := by
  unfold vmmMapInCr3 at run
  dsimp only at run
  obtain ⟨pdpt, s₁, first, run⟩ := run_bind_eq_some.mp run
  obtain ⟨-, more₁, at₁, card₁⟩ := (getOrAllocTable_route (j := 0) tables (by decide) rfl rfl reserved first).some (by omega)
  obtain ⟨pd, s₂, second, run⟩ := run_bind_eq_some.mp run
  obtain ⟨-, more₂, at₂, card₂⟩ := (getOrAllocTable_route (j := 1) more₁.tables (by decide) rfl at₁ (more₁.grows 0 reserved) second).some
    (by omega)
  obtain ⟨pt, s₃, third, run⟩ := run_bind_eq_some.mp run
  obtain ⟨success, more₃, at₃, card₃⟩ := (getOrAllocTable_route (j := 2) more₂.tables (by decide) rfl at₂
    (more₂.grows 0 (more₁.grows 0 reserved)) third).some (by omega)
  rw [if_neg success] at run
  rw [setWord_run run]
  exact ((more₁.trans more₂).trans more₃).mapped (by rw [← take_three]; exact at₃) (by omega)

theorem Spends.empty (spends : Spends s t) (empty : freeFrames s = ∅) : freeFrames t = ∅ := by
  have fewer := spends.card_le
  rw [empty, Finset.card_empty] at fewer
  exact Finset.card_eq_zero.mp (Nat.le_zero.mp fewer)

theorem vmmMapInCr3_mapped_or {phys flags : UInt64} (tables : FullTables s cr3) (reserved : s.bitmap 0 = true)
    (run : (vmmMapInCr3 cr3 virt phys flags).run s = some ((), t)) : Mapped s t cr3 virt (pteOf phys flags) ∨
      freeFrames t = ∅ ∧ tableAt next s.mem (frameOf cr3) (routeFrom 3 virt) = none := by
  unfold vmmMapInCr3 at run
  dsimp only at run
  -- a table that is missing is missing on the whole way
  have missing {u : Machine} {j : Nat} (more : Extends s u cr3 virt)
      (absent : tableAt next u.mem (frameOf cr3) ((routeFrom 3 virt).take (j+1)) = none) :
      tableAt next s.mem (frameOf cr3) (routeFrom 3 virt) = none := by
    rw [Option.eq_none_iff_forall_ne_some]
    intro p at_
    have upper := more.keeps _ p (path_routeFrom (index_lt 3 virt)) at_
    rw [← List.take_append_drop (j+1) (routeFrom 3 virt), tableAt_append, absent] at upper
    cases upper
  have write {pt : UInt64} {e : UInt64} : Moves Spends (if pt = 0 then return () else setWord pt (ptLookup virt) e : MmM Unit) := by
    split
    · exact .pure _
    · exact Respects.write _ _ _
  obtain ⟨pdpt, s₁, first, run⟩ := run_bind_eq_some.mp run
  cases getOrAllocTable_route (j := 0) tables (by decide) rfl rfl reserved first with
  | full empty absent =>
      have spends : Spends s t := Moves.bind (moves_getOrAllocTable Spends _ _ _ _)
        (fun _ => .bind (moves_getOrAllocTable Spends _ _ _ _) fun _ => write) s () t run
      exact .inr ⟨spends.empty empty, missing (.refl tables virt) absent⟩
  | there _ more₁ at₁ card₁ =>
  obtain ⟨pd, s₂, second, run⟩ := run_bind_eq_some.mp run
  cases getOrAllocTable_route (j := 1) more₁.tables (by decide) rfl at₁ (more₁.grows 0 reserved) second with
  | full empty absent =>
      have spends : Spends s₁ t := Moves.bind (moves_getOrAllocTable Spends _ _ _ _) (fun _ => write) s₁ () t run
      exact .inr ⟨spends.empty empty, missing more₁ absent⟩
  | there _ more₂ at₂ card₂ =>
  obtain ⟨pt, s₃, third, run⟩ := run_bind_eq_some.mp run
  cases getOrAllocTable_route (j := 2) more₂.tables (by decide) rfl at₂ (more₂.grows 0 (more₁.grows 0 reserved)) third with
  | full empty absent =>
      have spends : Spends s₂ t := write s₂ () t run
      exact .inr ⟨spends.empty empty, missing (more₁.trans more₂) absent⟩
  | there success more₃ at₃ card₃ =>
  rw [if_neg success] at run
  rw [setWord_run run]
  exact .inl (((more₁.trans more₂).trans more₃).mapped (by rw [← take_three]; exact at₃) (by omega))

end SwiftBSD.Proof.Mm
