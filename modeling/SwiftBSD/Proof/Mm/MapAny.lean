import SwiftBSD.Proof.Mm.Meaning

namespace SwiftBSD.Proof.Mm
open Lib SwiftBSD.Mm

variable {n d : Nat} {m s t u : Machine} {mem mem' : Mem} {p f g h i j : Nat} {q : List Nat} {cr3 a v e b parent r : UInt64}
  {user : Bool}

/-- A table the processor can reach through the first `n` entries of the PML4. -/
def HwTable (n : Nat) (mem : Mem) (root f : Nat) : Prop := ∃ q, Path 512 n 3 q ∧ tableAt hwNext mem root q = some f

/-- The tables below the first `n` entries of the PML4 are a tree of frames in use, and there are no pages of 1 GB. -/
structure HwTables (n : Nat) (m : Machine) (cr3 : UInt64) : Prop where
  aligned : cr3.toNat % 4096 = 0
  bound : cr3.toNat < 2 ^ 52
  tree : Tree hwNext m.mem 512 n 3 (frameOf cr3)
  small : ∀ q f i, Path 512 n 3 (q ++ [i]) → q.length < 2 → tableAt hwNext m.mem (frameOf cr3) q = some f →
    m.mem f i &&& pgPresent ≠ 0 → m.mem f i &&& pgHuge = 0
  taken : ∀ f, HwTable n m.mem (frameOf cr3) f → m.bitmap f = true

/-- The kernel follows the entries on the way to `v` to the tables the processor finds. -/
def PlainRoute (mem : Mem) (cr3 v : UInt64) : Prop := ∀ j f g, j < 3 →
  tableAt hwNext mem (frameOf cr3) ((routeFrom 3 v).take j) = some f → hwNext (mem f (index (3 - j) v)) = some g →
  (mem f (index (3 - j) v)).toNat < 2 ^ 52

/-- The number of tables that are missing on the way to a page, counting a page of 2 MB as a missing page table. -/
def tablesToMake (mem : Mem) (v : UInt64) : Nat → Nat → Nat
  | 0, _ => 0
  | d+1, p => match hwNext (mem p (index (d+1) v)) with
      | none => d + 1
      | some g => tablesToMake mem v d g

theorem HwTables.tableOf_cr3 (space : HwTables n m cr3) : tableOf cr3 = frameOf cr3 := by
  have := space.bound
  unfold tableOf frameOf
  omega

theorem HwTables.fresh (space : HwTables n s cr3) (free : s.bitmap g = false) (path : Path 512 n 3 q) :
    tableAt hwNext s.mem (frameOf cr3) q ≠ some g := by
  intro at_
  rw [space.taken g ⟨q, path, at_⟩] at free
  cases free

theorem path_take_low (low : index 3 v < n) (j : Nat) : Path 512 n 3 ((routeFrom 3 v).take j) := by
  have path : Path 512 n 3 (routeFrom 3 v) := path_routeFrom low
  rw [← List.take_append_drop j (routeFrom 3 v)] at path
  exact path.left

structure Grows (n : Nat) (s t : Machine) (cr3 v : UInt64) : Prop where
  tables : HwTables n t cr3
  plain : PlainRoute t.mem cr3 v
  keeps : ∀ q f, Path 512 n 3 q → tableAt hwNext s.mem (frameOf cr3) q = some f → tableAt hwNext t.mem (frameOf cr3) q = some f
  adds : ∀ q f, Path 512 n 3 q → tableAt hwNext t.mem (frameOf cr3) q = some f →
    tableAt hwNext s.mem (frameOf cr3) q = some f ∨ s.bitmap f = false
  grows : ∀ f, s.bitmap f = true → t.bitmap f = true
  same : ∀ f, ¬HwTable n t.mem (frameOf cr3) f → t.mem f = s.mem f
  rest : ∀ i, n ≤ i → t.mem (frameOf cr3) i = s.mem (frameOf cr3) i
  meaning : ∀ a, index 3 a < n → accessFrom t.mem a 3 (frameOf cr3) = accessFrom s.mem a 3 (frameOf cr3)

theorem Grows.refl (space : HwTables n s cr3) (plain : PlainRoute s.mem cr3 v) : Grows n s s cr3 v where
  tables := space
  plain := plain
  keeps := fun _ _ _ at_ => at_
  adds := fun _ _ _ => .inl
  grows := fun _ => id
  same := fun _ _ => rfl
  rest := fun _ _ => rfl
  meaning := fun _ _ => rfl

theorem Grows.table (grows : Grows n s t cr3 v) (table : HwTable n s.mem (frameOf cr3) f) : HwTable n t.mem (frameOf cr3) f := by
  obtain ⟨q, path, at_⟩ := table
  exact ⟨q, path, grows.keeps q f path at_⟩

theorem Grows.trans (first : Grows n s t cr3 v) (second : Grows n t u cr3 v) : Grows n s u cr3 v where
  tables := second.tables
  plain := second.plain
  keeps := fun q f path at_ => second.keeps q f path (first.keeps q f path at_)
  adds := by
    intro q f path at_
    rcases second.adds q f path at_ with old | free
    · exact first.adds q f path old
    · cases used : s.bitmap f with
      | false => exact .inr rfl
      | true => exact absurd free (by simp [first.grows f used])
  grows := fun f used => second.grows f (first.grows f used)
  same := fun f off => (second.same f off).trans (first.same f fun on => off (second.table on))
  rest := fun i above => (second.rest i above).trans (first.rest i above)
  meaning := fun a small => (second.meaning a small).trans (first.meaning a small)

section Made
variable (space : HwTables n s cr3) (wide : n ≤ 512) (low : index 3 v < n) (level : j < 3)
  (at_ : tableAt hwNext s.mem (frameOf cr3) ((routeFrom 3 v).take j) = some f)
include space wide low level at_

omit space wide at_ in
theorem path_route_snoc : Path 512 n 3 ((routeFrom 3 v).take j ++ [index (3 - j) v]) := by
  rw [← take_route level]
  exact path_take_low low (j+1)

omit wide in
theorem HwTables.absent (blank : hwNext (s.mem f (index (3 - j) v)) = none) (present : s.mem f (index (3 - j) v) &&& pgPresent ≠ 0) :
    j = 2 := by
  by_contra upper
  have length : ((routeFrom 3 v).take j).length = j := length_take_route level.le
  have small := space.small _ f _ (path_route_snoc low level) (by omega) at_ present
  unfold hwNext at blank
  rw [if_neg present, if_neg (not_not.mpr small)] at blank
  cases blank

variable (plain : PlainRoute s.mem cr3 v) (blank : next (s.mem f (index (3 - j) v)) = none) (bound : g ≤ maxPages)
  (free : s.bitmap g = false) (bitmap : t.bitmap = Function.update s.bitmap g true)
  (contents : ∀ k, k < 512 → g ≠ f → t.mem g k = newTable (s.mem f (index (3 - j) v)) k)
  (entry : t.mem f = Function.update (s.mem f) (index (3 - j) v) (newEntry user g))
  (other : ∀ h, h ≠ f → h ≠ g → t.mem h = s.mem h) (rights : j = 2 → user = true)
include plain blank bound free bitmap contents entry other rights

theorem HwTables.made : Grows n s t cr3 v ∧ tableAt hwNext t.mem (frameOf cr3) ((routeFrom 3 v).take (j+1)) = some g ∧
    (j < 2 → ∀ k, k < 512 → t.mem g k = 0) := by
  have path := path_route_snoc low level
  have length : ((routeFrom 3 v).take j).length = j := length_take_route level.le
  have hwBlank := hwNext_none.mpr blank
  have fresh : ∀ q, Path 512 n 3 q → tableAt hwNext s.mem (frameOf cr3) q ≠ some g := fun _ => space.fresh free
  have differ : g ≠ f := by
    rintro rfl
    exact fresh _ path.left at_
  have empty : j < 2 → ∀ k, k < 512 → t.mem g k = 0 := by
    intro upper k narrow
    rw [contents k narrow differ, newTable, if_pos]
    by_contra present
    have := space.absent low level at_ hwBlank present
    omega
  have elsewhere : ∀ h k, h ≠ g → (h ≠ f ∨ k ≠ index (3 - j) v) → t.mem h k = s.mem h k := by
    intro h k notNew away
    by_cases parent : h = f
    · rw [parent, entry, Function.update_of_ne (by tauto)]
    · rw [other h parent notNew]
  have grown : Grown hwNext s.mem t.mem 512 3 (frameOf cr3) ((routeFrom 3 v).take j) f (index (3 - j) v) g := {
    here := at_
    blank := hwBlank
    entry := by rw [entry, Function.update_self, hwNext_newEntry bound]
    empty := fun upper k narrow => by rw [empty (by omega) k narrow, hwNext_zero]
    same := elsewhere }
  have tables {q : List Nat} {h : Nat} (path' : Path 512 n 3 q) :=
    @Tree.tableAt_grown _ _ _ _ _ _ _ _ _ _ _ _ space.tree path fresh grown wide q h path'
  have now : tableAt hwNext t.mem (frameOf cr3) ((routeFrom 3 v).take (j+1)) = some g :=
    (tables (path_take_low low (j+1))).mpr (.inr ⟨take_route level, rfl⟩)
  have grows : ∀ h, s.bitmap h = true → t.bitmap h = true := by
    intro h used
    rw [bitmap, Function.update_apply, used, ite_self]
  refine ⟨?_, now, empty⟩
  exact {
    tables := {
      aligned := space.aligned
      bound := space.bound
      tree := space.tree.grow path fresh grown wide
      small := by
        intro q h k path' upper at' present
        rcases (tables path'.left).mp at' with old | ⟨rfl, rfl⟩
        · by_cases here : h = f ∧ k = index (3 - j) v
          · obtain ⟨rfl, rfl⟩ := here
            rw [entry, Function.update_self]
            exact (next_some (next_newEntry bound)).2.1
          · have old' : h ≠ g := by
              rintro rfl
              exact fresh q path'.left old
            rw [elsewhere h k old' (by tauto)] at present ⊢
            exact space.small q h k path' upper old present
        · rw [List.length_append, length, List.length_singleton] at upper
          rw [empty (by omega) k (path'.snoc_lt wide)]
          rfl
      taken := by
        rintro h ⟨q, path', at'⟩
        rcases (tables path').mp at' with old | ⟨-, rfl⟩
        · exact grows h (space.taken h ⟨q, path', old⟩)
        · rw [bitmap, Function.update_self] }
    plain := by
      intro k h g' small at' leads
      rcases (tables (path_take_low low k)).mp at' with old | ⟨same, rfl⟩
      · by_cases here : h = f ∧ index (3 - k) v = index (3 - j) v
        · rw [here.1, here.2, entry, Function.update_self]
          exact (tableEntry_newEntry bound).bound
        · have old' : h ≠ g := by
            rintro rfl
            exact fresh _ (path_take_low low k) old
          rw [elsewhere h _ old' (by tauto)] at leads ⊢
          exact plain k h g' small old leads
      · have lengths := congrArg List.length same
        rw [length_take_route small.le, List.length_append, length, List.length_singleton] at lengths
        rw [empty (by omega) _ (index_lt _ _)] at leads
        cases leads
    keeps := fun q h path' old => (tables path').mpr (.inl old)
    adds := by
      intro q h path' at'
      rcases (tables path').mp at' with old | ⟨-, rfl⟩
      · exact .inl old
      · exact .inr free
    grows := grows
    same := by
      intro h off
      refine other h ?_ ?_
      · rintro rfl
        exact off ⟨_, path.left, (tables path.left).mpr (.inl at_)⟩
      · rintro rfl
        exact off ⟨_, path_take_low low (j+1), now⟩
    rest := by
      intro k above
      refine elsewhere _ k (fun new => fresh [] .nil (by rw [new]; rfl)) ?_
      by_cases root : frameOf cr3 = f
      · refine .inr ?_
        rintro rfl
        have short := space.tree.unique [] _ f .nil path.left (by rw [root]; rfl) at_
        have zero := congrArg List.length short
        rw [length] at zero
        obtain rfl : j = 0 := zero.symm
        exact Nat.not_lt.mpr above low
      · exact .inl root
    meaning := by
      intro a small
      refine accessFrom_below space.tree path.left at_ small (fun q h path' at' notParent => ?_) fun through => ?_
      · refine other h notParent ?_
        rintro rfl
        exact fresh q path' at'
      · rw [length] at through ⊢
        obtain ⟨d, depth⟩ : ∃ d, 3 - j = d + 1 := ⟨2 - j, by omega⟩
        rw [depth] at blank contents entry hwBlank ⊢
        refine accessFrom_linked hwBlank bound entry (fun k narrow => contents k narrow differ) (fun present => ?_) ?_
        · have last := space.absent low level at_ (by rw [depth]; exact hwBlank) (by rw [depth]; exact present)
          exact ⟨by omega, rights last⟩
        · intro k q h leads path' at'
          have before : Path 512 n 3 ((routeFrom 3 a).take j ++ [index (d+1) a]) := by
            rw [← depth, ← take_route level]
            exact path_take_low small (j+1)
          have whole : Path 512 n 3 ((routeFrom 3 v).take j ++ index (d+1) a :: q) := by
            rw [← through]
            exact before.extend path' (by rw [length_take_route level.le]; omega)
          have reached : tableAt hwNext s.mem (frameOf cr3) ((routeFrom 3 v).take j ++ index (d+1) a :: q) = some h := by
            rw [tableAt_append, at_, Option.bind_some, tableAt_cons leads, at']
          refine other h ?_ ?_
          · rintro rfl
            have same := space.tree.unique _ _ h whole path.left reached at_
            exact absurd same (by simp)
          · rintro rfl
            exact fresh _ whole reached }

end Made

theorem tablesToMake_zero (empty : ∀ k, k < 512 → mem p k = 0) : tablesToMake mem v d p = d := by
  cases d with
  | zero => rfl
  | succ d => rw [tablesToMake, empty _ (index_lt (d+1) v), hwNext_zero]

/-- `get_or_alloc_table` on the way to `v`: it fails, or the table is there afterwards. Every frame it takes is one that was
missing. -/
theorem getOrAllocTable_grows {isPd : Bool} (space : HwTables n s cr3) (plain : PlainRoute s.mem cr3 v) (wide : n ≤ 512)
    (low : index 3 v < n) (level : d < 3) (last : isPd = decide (d = 0))
    (at_ : tableAt hwNext s.mem (frameOf cr3) ((routeFrom 3 v).take (2 - d)) = some (frameOf parent)) (reserved : s.bitmap 0 = true)
    (rights : d = 0 → user = true) (run : (getOrAllocTable parent (index (d+1) v) isPd user).run s = some (a, t)) :
    (a = 0 ∧ t = s ∧ freeFrames s = ∅ ∧ tablesToMake s.mem v (d+1) (frameOf parent) = d + 1) ∨
    (Grows n s t cr3 v ∧ tableAt hwNext t.mem (frameOf cr3) ((routeFrom 3 v).take (2 - d + 1)) = some (frameOf a) ∧
      tablesToMake t.mem v d (frameOf a) + (freeFrames s).card =
        tablesToMake s.mem v (d+1) (frameOf parent) + (freeFrames t).card) := by
  have depth : 3 - (2 - d) = d + 1 := by omega
  have path := path_route_snoc low (j := 2 - d) (by omega)
  have length : ((routeFrom 3 v).take (2 - d)).length = 2 - d := length_take_route (by omega)
  rw [depth] at path
  have step := getOrAllocTable_step (fun notPd present => ?small) reserved (space.taken _ ⟨_, path.left, at_⟩) run
  case small =>
    refine space.small _ _ _ path ?_ at_ present
    rw [notPd] at last
    have upper : d ≠ 0 := by simpa using last
    omega
  cases step with
  | full empty blank =>
      refine .inl ⟨rfl, rfl, empty, ?_⟩
      rw [tablesToMake, hwNext_none.mpr blank]
  | @there _ g leads here =>
      have follows : hwNext (s.mem (frameOf parent) (index (d+1) v)) = some g := by
        cases found : hwNext (s.mem (frameOf parent) (index (d+1) v)) with
        | none =>
            rw [hwNext_none.mp found] at leads
            cases leads
        | some k =>
            have bound := plain (2 - d) (frameOf parent) k (by omega) at_ (by rw [depth]; exact found)
            rw [depth] at bound
            rw [← found, hwNext_of_next bound leads]
      refine .inr ⟨.refl space plain, ?_, ?_⟩
      · rw [take_route (by omega), tableAt_snoc, at_, Option.bind_some, depth, follows, here]
      · rw [tablesToMake, follows, here]
  | @made g _ blank bound free cr3' lastPage bitmap contents entry other =>
      have bounded := Alloc.bounded bound
      obtain ⟨grows, now, empty⟩ := space.made wide low (j := 2 - d) (by omega) at_ plain (by rw [depth]; exact blank) bounded free
        bitmap (by rw [depth]; exact contents) (by rw [depth]; exact entry) other fun two => rights (by omega)
      refine .inr ⟨grows, by rw [frameOf_addrOf bounded]; exact now, ?_⟩
      have card := Alloc.card bound free lastPage bitmap
      have new : tablesToMake t.mem v d g = d := by
        cases d with
        | zero => rfl
        | succ d => exact tablesToMake_zero (empty (by omega))
      rw [frameOf_addrOf bounded, new, tablesToMake, hwNext_none.mpr blank]
      dsimp only
      omega

def pteLow (flags : UInt64) : UInt64 := pgPresent ||| flags &&& 0xFFF

theorem pteLow_lt (flags : UInt64) : (pteLow flags).toNat < 2 ^ 12 := by
  unfold pteLow
  rw [UInt64.toNat_or, UInt64.toNat_and]
  exact Nat.or_lt_two_pow (by decide) (Nat.and_le_right.trans_lt (by decide))

section Pte
variable {phys flags : UInt64} (aligned : phys.toNat % 4096 = 0) (bound : phys.toNat < 2 ^ 52)
include aligned bound

theorem toNat_pteOf : (pteOf phys flags).toNat = phys.toNat + (pteLow flags).toNat + if flags &&& pgNx ≠ 0 then 2 ^ 63 else 0 := by
  have low := pteLow_lt flags
  have shape : phys.toNat = 2 ^ 12 * (phys.toNat / 4096) := by omega
  have sum : (phys &&& pageMask ||| pgPresent ||| flags &&& 0xFFF).toNat = phys.toNat + (pteLow flags).toNat := by
    rw [UInt64.or_assoc, UInt64.toNat_or, toNat_pageMask]
    change 2 ^ 12 * (phys.toNat / 4096) ||| (pteLow flags).toNat = _
    rw [← Nat.two_pow_add_eq_or_of_lt low, ← shape]
  unfold pteOf
  dsimp only
  split
  · have value : pgNx.toNat = 2 ^ 63 * 1 := rfl
    rw [UInt64.toNat_or, sum, value, Nat.or_comm, ← Nat.two_pow_add_eq_or_of_lt (by omega)]
    omega
  · rw [sum, Nat.add_zero]

theorem pteOf_nx : pteOf phys flags &&& pgNx = 0 ↔ flags &&& pgNx = 0 := by
  have low := pteLow_lt flags
  have value := @toNat_pteOf phys flags aligned bound
  rw [and_pgNx, value]
  by_cases requested : flags &&& pgNx = 0
  · simp only [requested, ne_eq, not_true_eq_false, if_false, iff_true]
    omega
  · simp only [requested, ne_eq, not_false_eq_true, if_true, iff_false]
    omega

end Pte

section Entry
variable (space : HwTables n s cr3) (low : index 3 v < n) (at_ : tableAt hwNext s.mem (frameOf cr3) (routeFrom 3 v) = some f)
include space low at_

end Entry

section Map
variable {phys flags : UInt64} (space : HwTables 256 m cr3) (plain : PlainRoute m.mem cr3 v) (low : v.toNat < 2 ^ 47)
  (table : tableAt hwNext m.mem (frameOf cr3) (routeFrom 3 v) ≠ some 0) (reserved : m.bitmap 0 = true)
  (enough : tablesToMake m.mem v 3 (frameOf cr3) ≤ (freeFrames m).card)
include space plain low table reserved enough

end Map

section FewTables
variable {pd high : UInt64}

end FewTables

end SwiftBSD.Proof.Mm
