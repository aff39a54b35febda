import SwiftBSD.Proof.Mm.CowFault

namespace SwiftBSD.Proof.Mm
open Lib SwiftBSD.Mm

variable {n d k : Nat} {m s t : Machine} {mem mem' : Mem} {p f g h i : Nat} {q : List Nat} {cr3 virt virt' e : UInt64}

/-- A table entry as `get_or_alloc_table` writes it, up to the bits the processor sets. -/
structure TableEntry (user : Bool) (e : UInt64) : Prop where
  write : e &&& pgWrite ≠ 0
  rights : (e &&& pgUser != 0) = user
  bound : e.toNat < 2 ^ 52

/-- An address space as `setup_paging` and `get_or_alloc_table` build it: a tree of frames in use. There are no pages of
1 GB. -/
structure FullTables (m : Machine) (cr3 : UInt64) : Prop where
  aligned : cr3.toNat % 4096 = 0
  bound : cr3.toNat < 2 ^ 52
  tree : Tree next m.mem 512 512 3 (frameOf cr3)
  entries : ∀ q f i g, Path 512 512 3 (q ++ [i]) → tableAt next m.mem (frameOf cr3) q = some f → next (m.mem f i) = some g →
    TableEntry (decide ((q ++ [i]).headD 0 < 256)) (m.mem f i)
  small : ∀ q f i, Path 512 512 3 (q ++ [i]) → q.length < 2 → tableAt next m.mem (frameOf cr3) q = some f →
    m.mem f i &&& pgHuge = 0
  taken : ∀ q f, Path 512 512 3 q → tableAt next m.mem (frameOf cr3) q = some f → m.bitmap f = true ∧ f ≠ 0

/-- The level and the entry at which the walk of an address ends. -/
def walk (mem : Mem) (virt : UInt64) : Nat → Nat → Nat × UInt64
  | 0, f => (0, mem f (index 0 virt))
  | d+1, f => match next (mem f (index (d+1) virt)) with
      | none => (d+1, mem f (index (d+1) virt))
      | some g => walk mem virt d g

def leaf (virt : UInt64) (w : Nat × UInt64) : Option Translation :=
  if w.2 &&& pgPresent = 0 then none else if w.1 < 3 then some (leafAt w.1 w.2 virt) else none

def Translation.inHalf (user : Bool) (t : Translation) : Translation := { t with user := user && t.user }

theorem TableEntry.restrict {user : Bool} (entry : TableEntry user e) (tr : Translation) :
    tr.restrict e = Translation.inHalf user tr := by
  obtain ⟨phys, leaf, level, write, user', noExec⟩ := tr
  have bound := entry.bound
  have nx : e &&& pgNx = 0 := by
    rw [and_pgNx]
    omega
  simp [Translation.restrict, Translation.inHalf, entry.write, entry.rights, nx]

theorem TableEntry.tableOf {user : Bool} (entry : TableEntry user e) : tableOf e = frameOf e := by
  have := entry.bound
  unfold SwiftBSD.Mm.tableOf frameOf
  omega

theorem inHalf_inHalf (user : Bool) (tr : Translation) :
    Translation.inHalf user (Translation.inHalf user tr) = Translation.inHalf user tr := by
  cases user <;> simp [Translation.inHalf]

theorem next_some (here : next e = some g) : e &&& pgPresent ≠ 0 ∧ e &&& pgHuge = 0 ∧ frameOf e = g := by
  unfold next at here
  split at here
  · cases here
  · next present =>
      split at here
      · cases here
      · next small => exact ⟨present, not_not.mp small, Option.some.inj here⟩

theorem translateFrom_walk {user : Bool} (small : d ≤ 2)
    (entries : ∀ q f i g, Path 512 512 d (q ++ [i]) → tableAt next mem p q = some f → next (mem f i) = some g →
      TableEntry user (mem f i)) :
    (translateFrom mem virt d p).map (Translation.inHalf user) = (leaf virt (walk mem virt d p)).map (Translation.inHalf user) := by
  induction d generalizing p with
  | zero =>
      rw [translateFrom_zero]
      unfold walk leaf
      dsimp only
      split <;> rfl
  | succ d ih =>
      unfold walk
      cases here : next (mem p (index (d+1) virt)) with
      | none =>
          rw [translateFrom_stop here]
          unfold stopAt leaf
          dsimp only
          rw [if_pos (show d < 2 by omega), if_pos (show d + 1 < 3 by omega)]
      | some g =>
          have entry := entries [] p _ g (.cons (index_lt (d+1) virt) .nil) rfl here
          obtain ⟨present, notHuge, rfl⟩ := next_some here
          have below := ih (by omega) fun q f i g path at_ leads =>
            entries (index (d+1) virt :: q) f i g (.cons (index_lt (d+1) virt) path) (by rw [tableAt_cons here, at_]) leads
          rw [translateFrom_succ, if_neg present, if_neg (by simp [notHuge]), Option.map_map, entry.tableOf, ← below]
          congr 1
          funext tr
          rw [Function.comp_apply, entry.restrict, inHalf_inHalf]

theorem FullTables.tableOf_cr3 (tables : FullTables m cr3) : tableOf cr3 = frameOf cr3 := by
  have := tables.bound
  unfold tableOf frameOf
  omega

theorem FullTables.translate_walk (tables : FullTables m cr3) (virt : UInt64) :
    translate m.mem cr3 virt = (leaf virt (walk m.mem virt 3 (frameOf cr3))).map
      (Translation.inHalf (decide (index 3 virt < 256))) := by
  unfold SwiftBSD.Mm.translate walk
  rw [tables.tableOf_cr3]
  have notHuge := tables.small [] (frameOf cr3) (index 3 virt) (.cons (index_lt 3 virt) .nil) (by decide) rfl
  cases here : next (m.mem (frameOf cr3) (index 3 virt)) with
  | none =>
      rw [translateFrom_stop here]
      unfold stopAt leaf
      simp
  | some g =>
      have entry := tables.entries [] _ (index 3 virt) g (.cons (index_lt 3 virt) .nil) rfl here
      obtain ⟨present, -, rfl⟩ := next_some here
      dsimp only
      rw [translateFrom_succ, if_neg present, if_neg (by simp [notHuge]), entry.tableOf]
      have below : (translateFrom m.mem virt 2 _).map (Translation.inHalf (decide (index 3 virt < 256))) = _ :=
        translateFrom_walk (by decide) fun q f i g path at_ leads =>
          tables.entries (index 3 virt :: q) f i g (.cons (index_lt 3 virt) path) (by rw [tableAt_cons here, at_]) leads
      rw [← below]
      congr 1
      funext tr
      exact entry.restrict tr

theorem take_route {j : Nat} (small : j < 3) :
    (routeFrom 3 virt).take (j+1) = (routeFrom 3 virt).take j ++ [index (3 - j) virt] := by
  match j with
  | 0 => rfl
  | 1 => rfl
  | 2 => rfl

theorem path_take (virt : UInt64) (j : Nat) : Path 512 512 3 ((routeFrom 3 virt).take j) := by
  have path : Path 512 512 3 (routeFrom 3 virt) := path_routeFrom (index_lt 3 virt)
  rw [← List.take_append_drop j (routeFrom 3 virt)] at path
  exact path.left

theorem length_take_route {j : Nat} (small : j ≤ 3) : ((routeFrom 3 virt).take j).length = j := by
  rw [List.length_take, length_routeFrom]
  omega

theorem walk_from {j : Nat} (at_ : tableAt next mem p ((routeFrom d virt).take j) = some h) (small : j ≤ d) :
    walk mem virt d p = walk mem virt (d - j) h := by
  induction j generalizing d p with
  | zero =>
      obtain rfl := Option.some.inj at_
      rfl
  | succ j ih =>
      obtain ⟨d, rfl⟩ := Nat.exists_eq_succ_of_ne_zero (by omega : d ≠ 0)
      rw [routeFrom, List.take_succ_cons] at at_
      obtain ⟨g, here, at_⟩ := tableAt_cons_some at_
      rw [walk, here]
      dsimp only
      rw [ih at_ (by omega), Nat.succ_sub_succ]

theorem walk_end (mem : Mem) (virt : UInt64) (d p : Nat) : ∃ j h, j ≤ d ∧ tableAt next mem p ((routeFrom d virt).take j) = some h ∧
    walk mem virt d p = (d - j, mem h (index (d - j) virt)) ∧ (j < d → next (mem h (index (d - j) virt)) = none) := by
  induction d generalizing p with
  | zero => exact ⟨0, p, Nat.le_refl _, rfl, rfl, fun small => absurd small (by decide)⟩
  | succ d ih =>
      cases here : next (mem p (index (d+1) virt)) with
      | none =>
          refine ⟨0, p, Nat.zero_le _, rfl, ?_, fun _ => here⟩
          rw [walk, here]
          rfl
      | some g =>
          obtain ⟨j, h, small, at_, ends, stops⟩ := ih g
          refine ⟨j + 1, h, by omega, ?_, ?_, ?_⟩
          · rw [routeFrom, List.take_succ_cons, tableAt_cons here, at_]
          · rw [walk, here, Nat.succ_sub_succ]
            exact ends
          · rw [Nat.succ_sub_succ]
            exact fun small => stops (by omega)

theorem walk_stop (stops : next (mem p (index (d+1) virt)) = none) : walk mem virt (d+1) p = (d+1, mem p (index (d+1) virt)) := by
  rw [walk, stops]

section Grown
variable {root : Nat} (tree : Tree next mem 512 512 3 root) (short : q.length ≤ 2) (path : Path 512 512 3 (q ++ [i]))
  (fresh : ∀ p, Path 512 512 3 p → tableAt next mem root p ≠ some g) (grown : Grown next mem mem' 512 3 root q f i g)
include tree short path fresh grown

theorem walk_grown_here (through : (routeFrom 3 virt).take (q.length + 1) = q ++ [i]) :
    walk mem virt 3 root = (3 - q.length, mem f i) ∧
    walk mem' virt 3 root = (2 - q.length, mem' g (index (2 - q.length) virt)) := by
  rw [take_route (by omega)] at through
  obtain ⟨before, last⟩ := List.append_inj' through rfl
  have here : index (3 - q.length) virt = i := List.singleton_inj.mp last
  obtain ⟨d, depth⟩ : ∃ d, 3 - q.length = d + 1 := ⟨2 - q.length, by omega⟩
  have level : 2 - q.length = d := by omega
  constructor
  · have reached := walk_from (by rw [before]; exact grown.here) (by omega : q.length ≤ 3)
    rw [reached, depth, walk_stop]
    · rw [depth] at here
      rw [here]
    · rw [depth] at here
      rw [here]
      exact grown.blank
  · have at_ : tableAt next mem' root ((routeFrom 3 virt).take (q.length + 1)) = some g := by
      rw [take_route (by omega), before, here]
      exact (tree.tableAt_grown path fresh grown (Nat.le_refl _) path).mpr (.inr ⟨rfl, rfl⟩)
    have reached := walk_from at_ (by omega)
    rw [reached, show 3 - (q.length + 1) = d by omega, level]
    cases d with
    | zero => rfl
    | succ d => exact walk_stop (grown.empty (by omega) _ (index_lt _ _))

theorem walk_grown_other (past : (routeFrom 3 virt).take (q.length + 1) ≠ q ++ [i]) :
    walk mem' virt 3 root = walk mem virt 3 root := by
  obtain ⟨j, h, small, at_, ends, stops⟩ := walk_end mem virt 3 root
  have at' := (tree.tableAt_grown path fresh grown (Nat.le_refl _) (path_take virt j)).mpr (.inl at_)
  have same : mem' h (index (3 - j) virt) = mem h (index (3 - j) virt) := by
    refine grown.same h _ ?_ ?_
    · rintro rfl
      exact fresh _ (path_take virt j) at_
    · by_contra both
      push Not at both
      obtain ⟨rfl, here⟩ := both
      have equal := tree.unique _ q h (path_take virt j) path.left at_ grown.here
      have length := congrArg List.length equal
      rw [length_take_route small] at length
      subst length
      apply past
      rw [take_route (by omega), equal, here]
  rw [walk_from at' small, ends]
  cases depth : 3 - j with
  | zero =>
      rw [depth] at same
      rw [walk, same]
  | succ d =>
      rw [depth] at same stops
      rw [walk_stop, same]
      rw [same]
      exact stops (by omega)

end Grown

end SwiftBSD.Proof.Mm
