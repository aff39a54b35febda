import SwiftBSD.Proof.Mm.Active

namespace SwiftBSD.Proof.Mm
open Lib SwiftBSD.Mm

variable {n d : Nat} {mem mem' : Mem} {p f g h i j : Nat} {q : List Nat} {e a v : UInt64} {user : Bool}

def accessFrom (mem : Mem) (a : UInt64) (d p : Nat) : Option Access := (translateFrom mem a d p).map Translation.access

def Access.restrict (e : UInt64) (x : Access) : Access :=
  { x with
    write := e &&& pgWrite != 0 && x.write
    user := e &&& pgUser != 0 && x.user
    noExec := e &&& pgNx != 0 || x.noExec }

theorem hwNext_none : hwNext e = none ↔ next e = none := by
  unfold hwNext next
  by_cases present : e &&& pgPresent = 0
  · rw [if_pos present, if_pos present]
  · rw [if_neg present, if_neg present]
    by_cases huge : e &&& pgHuge ≠ 0
    · rw [if_pos huge, if_pos huge]
    · rw [if_neg huge, if_neg huge]
      exact ⟨nofun, nofun⟩

theorem hwNext_some (leads : hwNext e = some g) : e &&& pgPresent ≠ 0 ∧ e &&& pgHuge = 0 ∧ tableOf e = g := by
  unfold hwNext at leads
  split at leads
  · cases leads
  · next present =>
      split at leads
      · cases leads
      · next small => exact ⟨present, not_not.mp small, Option.some.inj leads⟩

theorem hwNext_of_next (bound : e.toNat < 2 ^ 52) (leads : next e = some g) : hwNext e = some g := by
  obtain ⟨present, small, here⟩ := next_some leads
  unfold hwNext
  rw [if_neg present, if_neg (not_not.mpr small), ← here]
  congr 1
  unfold tableOf frameOf
  omega

theorem translateFrom_next (leads : hwNext (mem p (index (d+1) a)) = some g) :
    translateFrom mem a (d+1) p = (translateFrom mem a d g).map (·.restrict (mem p (index (d+1) a))) := by
  obtain ⟨present, small, here⟩ := hwNext_some leads
  rw [translateFrom_succ, if_neg present, if_neg (not_not.mpr small), here]

theorem accessFrom_next (leads : hwNext (mem p (index (d+1) a)) = some g) :
    accessFrom mem a (d+1) p = (accessFrom mem a d g).map (Access.restrict (mem p (index (d+1) a))) := by
  unfold accessFrom
  rw [translateFrom_next leads, Option.map_map, Option.map_map]
  rfl

theorem accessFrom_stop (stop : hwNext (mem p (index (d+1) a)) = none) :
    accessFrom mem a (d+1) p = (stopAt d (mem p (index (d+1) a)) a).map Translation.access := by
  unfold accessFrom
  rw [translateFrom_stop (hwNext_none.mp stop)]

theorem accessFrom_same (frames : ∀ q f, Path 512 512 d q → tableAt hwNext mem p q = some f → mem' f = mem f) :
    accessFrom mem' a d p = accessFrom mem a d p := by
  unfold accessFrom
  rw [translate_same frames]

theorem accessFrom_below (tree : Tree hwNext mem 512 n d p) (path : Path 512 n d q) (at_ : tableAt hwNext mem p q = some f)
    (small : index d a < n) (same : ∀ q' h, Path 512 n d q' → tableAt hwNext mem p q' = some h → h ≠ f → mem' h = mem h)
    (here : (routeFrom d a).take q.length = q → accessFrom mem' a (d - q.length) f = accessFrom mem a (d - q.length) f) :
    accessFrom mem' a d p = accessFrom mem a d p := by
  induction q generalizing n d p with
  | nil =>
      obtain rfl := Option.some.inj at_
      exact here rfl
  | cons i q ih =>
      cases path with
      | @cons _ d _ _ bound path =>
      obtain ⟨g, leads, at_⟩ := tableAt_cons_some at_
      have root : mem' p = mem p := same [] p .nil rfl (tree.root_apart bound leads path at_).symm
      cases follows : hwNext (mem p (index (d+1) a)) with
      | none => rw [accessFrom_stop follows, accessFrom_stop (by rw [root]; exact follows), root]
      | some k =>
          rw [accessFrom_next follows, accessFrom_next (g := k) (by rw [root]; exact follows), root]
          congr 1
          by_cases on : index (d+1) a = i
          · subst on
            obtain rfl := Option.some.inj (follows.symm.trans leads)
            refine ih (tree.sub bound leads) path at_ (index_lt d a) (fun q' h path' at' differ => ?_) fun onRoute => ?_
            · exact same (_ :: q') h (.cons bound path') (by rw [tableAt_cons leads, at']) differ
            · have now := here (by rw [List.length_cons, routeFrom, List.take_succ_cons, onRoute])
              rwa [List.length_cons, Nat.succ_sub_succ] at now
          · refine accessFrom_same fun q' h path' at' => ?_
            refine same (_ :: q') h (.cons small path') (by rw [tableAt_cons follows, at']) ?_
            rintro rfl
            exact on (tree.apart small follows path' at' bound leads path at_)

theorem hwNext_zero : hwNext 0 = none := rfl

theorem hwNext_newEntry (bound : g ≤ maxPages) : hwNext (newEntry user g) = some g :=
  hwNext_of_next (tableEntry_newEntry bound).bound (next_newEntry bound)

theorem accessFrom_empty (empty : ∀ j, j < 512 → mem p j = 0) : accessFrom mem a d p = none := by
  unfold accessFrom
  cases d with
  | zero =>
      rw [translateFrom_zero, empty _ (index_lt 0 a)]
      rfl
  | succ d =>
      rw [translateFrom_succ, empty _ (index_lt (d+1) a)]
      rfl

theorem restrict_newEntry (bound : g ≤ maxPages) (x : Access) : Access.restrict (newEntry true g) x = x := by
  have entry := @tableEntry_newEntry g true bound
  have small := entry.bound
  have noNx : newEntry true g &&& pgNx = 0 := and_pgNx.mpr (by omega)
  unfold Access.restrict
  rw [bne_iff_ne.mpr entry.write, entry.rights, noNx, Bool.true_and, Bool.true_and]
  rfl

theorem accessFrom_linked (blank : hwNext (mem f i) = none) (bound : g ≤ maxPages)
    (entry : mem' f = Function.update (mem f) i (newEntry user g)) (contents : ∀ j, j < 512 → mem' g j = newTable (mem f i) j)
    (piece : mem f i &&& pgPresent ≠ 0 → d = 0 ∧ user = true)
    (below : ∀ k q h, hwNext (mem f (index (d+1) a)) = some k → Path 512 512 d q → tableAt hwNext mem k q = some h → mem' h = mem h) :
    accessFrom mem' a (d+1) f = accessFrom mem a (d+1) f := by
  by_cases on : index (d+1) a = i
  · have now : hwNext (mem' f (index (d+1) a)) = some g := by
      rw [entry, on, Function.update_self, hwNext_newEntry bound]
    have here : mem' f (index (d+1) a) = newEntry user g := by rw [entry, on, Function.update_self]
    rw [accessFrom_next now, here, accessFrom_stop (by rw [on]; exact blank), on]
    by_cases present : mem f i &&& pgPresent = 0
    · have empty : ∀ j, j < 512 → mem' g j = 0 := fun j small => by
        rw [contents j small, newTable, if_pos present]
      rw [accessFrom_empty empty]
      unfold stopAt
      rw [if_pos present]
      rfl
    · obtain ⟨rfl, rfl⟩ := piece present
      have small := index_lt 0 a
      have leaf : mem' g (index 0 a) = splitEntry (mem f i) (index 0 a) := by rw [contents _ small, newTable, if_neg present]
      have still := (splitEntry_present (e := mem f i) small).not.mpr present
      have after : accessFrom mem' a 0 g = some (Translation.access (leafAt 1 (mem f i) a)) := by
        unfold accessFrom
        rw [translateFrom_zero, leaf, if_neg still, Option.map_some, access_split]
      rw [after, Option.map_some, restrict_newEntry bound]
      unfold stopAt
      rw [if_neg present]
      rfl
  · have same : mem' f (index (d+1) a) = mem f (index (d+1) a) := by rw [entry, Function.update_of_ne on]
    cases follows : hwNext (mem f (index (d+1) a)) with
    | none => rw [accessFrom_stop follows, accessFrom_stop (by rw [same]; exact follows), same]
    | some k =>
        rw [accessFrom_next follows, accessFrom_next (g := k) (by rw [same]; exact follows), same]
        congr 1
        exact accessFrom_same fun q h path at_ => below k q h follows path at_

end SwiftBSD.Proof.Mm
