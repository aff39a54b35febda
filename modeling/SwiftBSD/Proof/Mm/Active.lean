import SwiftBSD.Proof.Mm.Boot
import SwiftBSD.Proof.Mm.Unmap

namespace SwiftBSD.Proof.Mm
open Lib SwiftBSD.Mm

variable {m s t u : Machine} {mem mem' : Mem} {f g h i j pd : Nat} {q : List Nat} {spaces : List UInt64}
  {cr3 pagePml4 v r e a p : UInt64}

def IsTable (mem : Mem) (cr3 : UInt64) (f : Nat) : Prop := ∃ q, Path 512 512 3 q ∧ tableAt next mem (frameOf cr3) q = some f

/-- Address spaces that may share the tables of the high half, but no table of the low half. -/
structure Spaces (m : Machine) (spaces : List UInt64) : Prop where
  tables : ∀ r ∈ spaces, FullTables m r
  apart : ∀ r ∈ spaces, ∀ r' ∈ spaces, r ≠ r' → ∀ f, LowTable m.mem r f → ¬IsTable m.mem r' f

theorem FullTables.tableAt_hw (tables : FullTables s cr3) (path : Path 512 512 3 q)
    (at_ : tableAt hwNext s.mem (frameOf cr3) q = some f) : tableAt next s.mem (frameOf cr3) q = some f := by
  induction q using List.reverseRecOn generalizing f with
  | nil => exact at_
  | append_singleton q i ih =>
      rw [tableAt_snoc] at at_ ⊢
      obtain ⟨h, before, leads⟩ := Option.bind_eq_some_iff.mp at_
      have before' := ih path.left before
      rw [before', Option.bind_some]
      unfold hwNext at leads
      split at leads
      · cases leads
      next present =>
      split at leads
      · cases leads
      next small =>
      have here := next_of_present present (not_not.mp small)
      have entry := tables.entries q h i _ path before' here
      rw [here, ← entry.tableOf]
      exact leads

theorem FullTables.translate_same (tables : FullTables s cr3) (same : ∀ f, IsTable s.mem cr3 f → mem' f = s.mem f) (a : UInt64) :
    translate mem' cr3 a = translate s.mem cr3 a := by
  unfold SwiftBSD.Mm.translate
  rw [tables.tableOf_cr3]
  exact SwiftBSD.Proof.Mm.translate_same fun q f path at_ => same f ⟨q, path, tables.tableAt_hw path at_⟩

theorem lowTable_route (low : v.toNat < 2 ^ 47) (at_ : tableAt next mem (frameOf cr3) ((routeFrom 3 v).take j) = some f) :
    LowTable mem cr3 f := by
  have path : Path 512 256 3 (routeFrom 3 v) := path_routeFrom (index_three_low low)
  rw [← List.take_append_drop j (routeFrom 3 v)] at path
  exact ⟨_, path.left, at_⟩

theorem Spaces.others (all : Spaces m spaces) (here : cr3 ∈ spaces) (other : r ∈ spaces) (differ : r ≠ cr3)
    (same : ∀ f, IsTable m.mem r f → ¬LowTable m.mem cr3 f → m.bitmap f = true → mem' f = m.mem f) (a : UInt64) :
    translate mem' r a = translate m.mem r a := by
  have tables := all.tables r other
  refine tables.translate_same (fun f table => same f table (fun low => ?_) ?_) a
  · exact all.apart cr3 here r other (Ne.symm differ) f low table
  · obtain ⟨q, path, at_⟩ := table
    exact (tables.taken q f path at_).1

theorem pageAlloc_total (s : Machine) : ∃ a t, pageAlloc.run s = some (a, t) := by
  unfold pageAlloc
  rw [run_bind_some (x := get) rfl]
  split
  · exact ⟨_, _, rfl⟩
  · exact ⟨_, _, rfl⟩

theorem getOrAllocTable_total (parent : UInt64) (idx : Nat) (isPd user : Bool) (s : Machine) :
    ∃ a t, (getOrAllocTable parent idx isPd user).run s = some (a, t) := by
  unfold getOrAllocTable
  rw [run_bind_some (x := word _ _) rfl]
  split
  · split
    · obtain ⟨pt, u, alloc⟩ := pageAlloc_total s
      rw [run_bind_some alloc]
      split
      · exact ⟨_, _, rfl⟩
      · obtain ⟨v, zero⟩ := forRange_total (fun i => setWord_total pt i 0) 0 512 u
        obtain ⟨w, fill⟩ := forRange_total (fun i => setWord_total pt i _) 0 512 v
        rw [run_bind_some zero, run_bind_some fill]
        exact ⟨_, _, rfl⟩
    · exact ⟨_, _, rfl⟩
  · obtain ⟨paddr, u, alloc⟩ := pageAlloc_total s
    rw [run_bind_some alloc]
    split
    · exact ⟨_, _, rfl⟩
    · obtain ⟨v, zero⟩ := forRange_total (fun i => setWord_total paddr i 0) 0 512 u
      rw [run_bind_some zero]
      exact ⟨_, _, rfl⟩

theorem vmmMapInCr3_total (cr3 virt phys flags : UInt64) (s : Machine) :
    ∃ t, (vmmMapInCr3 cr3 virt phys flags).run s = some ((), t) := by
  unfold vmmMapInCr3
  dsimp only
  obtain ⟨pdpt, s₁, first⟩ := getOrAllocTable_total cr3 (pml4Lookup virt) false (decide (pml4Lookup virt < 256)) s
  rw [run_bind_some first]
  obtain ⟨pd, s₂, second⟩ := getOrAllocTable_total pdpt (pdptLookup virt) false (decide (pml4Lookup virt < 256)) s₁
  rw [run_bind_some second]
  obtain ⟨pt, s₃, third⟩ := getOrAllocTable_total pd (pdLookup virt) true (decide (pml4Lookup virt < 256)) s₂
  rw [run_bind_some third]
  split
  · exact ⟨_, rfl⟩
  · exact ⟨_, rfl⟩

theorem vmmMap_total (virt phys flags : UInt64) (s : Machine) : ∃ t, (vmmMap virt phys flags).run s = some ((), t) := by
  unfold vmmMap
  rw [run_bind_some (x := get) rfl]
  exact vmmMapInCr3_total _ _ _ _ _

theorem vmmPtLookup_total (pagePml4 virt : UInt64) (s : Machine) : ∃ found, (vmmPtLookup pagePml4 virt).run s = some (found, s) := by
  unfold vmmPtLookup
  rw [run_bind_some (x := word _ _) rfl]
  split
  · exact ⟨_, rfl⟩
  rw [run_bind_some (x := word _ _) rfl]
  split
  · exact ⟨_, rfl⟩
  rw [run_bind_some (x := word _ _) rfl]
  split
  · exact ⟨_, rfl⟩
  rw [run_bind_some (x := word _ _) rfl]
  split
  · exact ⟨_, rfl⟩
  · exact ⟨_, rfl⟩

theorem pageFree_total (addr : UInt64) (s : Machine) : ∃ t, (pageFree addr).run s = some ((), t) := by
  unfold pageFree
  rw [run_bind_some (x := get) rfl]
  dsimp only
  split
  · exact ⟨_, rfl⟩
  split
  · exact ⟨_, rfl⟩
  · exact ⟨_, rfl⟩

theorem vmmUnmap_total (pagePml4 virt : UInt64) (s : Machine) : ∃ t, (vmmUnmap pagePml4 virt).run s = some ((), t) := by
  unfold vmmUnmap
  rw [run_bind_some (x := word _ _) rfl]
  split
  · exact ⟨_, rfl⟩
  rw [run_bind_some (x := word _ _) rfl]
  split
  · exact ⟨_, rfl⟩
  rw [run_bind_some (x := word _ _) rfl]
  split
  · exact ⟨_, rfl⟩
  rw [run_bind_some (x := word _ _) rfl]
  split
  · obtain ⟨u, free⟩ := pageFree_total _ s
    rw [run_bind_some free]
    exact ⟨_, rfl⟩
  · exact ⟨_, rfl⟩

theorem Spaces.map_same (all : Spaces m spaces) (here : cr3 ∈ spaces) (other : r ∈ spaces) (differ : r ≠ cr3)
    (low : v.toNat < 2 ^ 47) (mapped : Mapped m t cr3 v e) (table : IsTable m.mem r f) : t.mem f = m.mem f := by
  refine mapped.same f fun on => ?_
  obtain ⟨j, -, at_⟩ := on
  rcases mapped.adds _ f (path_take v j) at_ with old | ⟨free, -⟩
  · exact all.apart cr3 here r other (Ne.symm differ) f (lowTable_route low old) table
  · obtain ⟨q, path, at'⟩ := table
    rw [((all.tables r other).taken q f path at').1] at free
    cases free

theorem root_isTable : IsTable mem cr3 (frameOf cr3) := ⟨[], .nil, rfl⟩

theorem lastTable_same (tables : FullTables s cr3) (same : ∀ f, IsTable s.mem cr3 f → mem' f = s.mem f) :
    lastTable mem' cr3 v = lastTable s.mem cr3 v := by
  have path (j : Nat) : Path 512 512 3 ((routeFrom 3 v).take j) := path_take v j
  unfold lastTable
  dsimp only
  rw [same _ root_isTable]
  split
  · rfl
  next present₃ =>
  have small₃ := tables.small [] (frameOf cr3) (index 3 v) (path 1) (by decide) rfl
  have at₂ : tableAt next s.mem (frameOf cr3) ((routeFrom 3 v).take 1) = some (frameOf (s.mem (frameOf cr3) (index 3 v))) := by
    change tableAt next s.mem (frameOf cr3) [index 3 v] = _
    rw [tableAt_cons (next_of_present present₃ small₃)]
    rfl
  rw [frameOf_pageMask, same _ ⟨_, path 1, at₂⟩]
  split
  · rfl
  next present₂ =>
  have small₂ := tables.small _ _ (index 2 v) (path 2) (by rw [length_take_route (by decide)]; decide) at₂
  have at₁ : tableAt next s.mem (frameOf cr3) ((routeFrom 3 v).take 2) =
      some (frameOf (s.mem (frameOf (s.mem (frameOf cr3) (index 3 v))) (index 2 v))) := by
    rw [take_route (by decide), tableAt_snoc, at₂]
    exact next_of_present present₂ small₂
  rw [frameOf_pageMask, same _ ⟨_, path 2, at₁⟩]

theorem lastTable_at (at_ : tableAt next mem (frameOf cr3) ((routeFrom 3 v).take 2) = some pd) : lastTable mem cr3 v =
    if mem pd (index 1 v) &&& pgPresent = 0 then none else some (mem pd (index 1 v) &&& pageMask) := by
  change tableAt next mem (frameOf cr3) [index 3 v, index 2 v] = some pd at at_
  obtain ⟨pdpt, leads₃, at_⟩ := tableAt_cons_some at_
  obtain ⟨pd', leads₂, at_⟩ := tableAt_cons_some at_
  obtain rfl := Option.some.inj at_
  obtain ⟨present₃, -, rfl⟩ := next_some leads₃
  obtain ⟨present₂, -, rfl⟩ := next_some leads₂
  unfold lastTable
  dsimp only
  rw [if_neg present₃, frameOf_pageMask, if_neg present₂, frameOf_pageMask]

theorem lastTable_leaf (at_ : tableAt next mem (frameOf cr3) (routeFrom 3 v) = some f) :
    ∃ a, lastTable mem cr3 v = some a ∧ frameOf a = f := by
  rw [← take_three, take_route (by decide), tableAt_snoc] at at_
  obtain ⟨pd, before, leads⟩ := Option.bind_eq_some_iff.mp at_
  obtain ⟨present, -, here⟩ := next_some leads
  exact ⟨_, by rw [lastTable_at before]; exact if_neg present, frameOf_pageMask.trans here⟩

theorem Huge.lastTable (huge : Huge mem cr3 v pd e) : ∃ a, lastTable mem cr3 v = some a ∧ frameOf a = frameOf e := by
  refine ⟨e &&& pageMask, ?_, frameOf_pageMask⟩
  rw [lastTable_at huge.at_, huge.entry, if_neg huge.present]

theorem lookup_entry (table : lastTable t.mem pagePml4 v = some a) (entry : t.mem (frameOf a) (index 0 v) = e)
    (present : e &&& pgPresent ≠ 0) : (vmmPtLookup pagePml4 v).run t = some (some (a, index 0 v), t) := by
  obtain ⟨found, run⟩ := vmmPtLookup_total pagePml4 v t
  obtain ⟨-, value⟩ := vmmPtLookup_run run
  rw [table] at value
  dsimp only at value
  rw [entry, if_neg present] at value
  rw [run, value]

theorem lookup_some {found : UInt64 × Nat} (run : (vmmPtLookup pagePml4 v).run t = some (some found, t)) :
    lastTable t.mem pagePml4 v = some found.1 ∧ found.2 = index 0 v := by
  obtain ⟨-, value⟩ := vmmPtLookup_run run
  split at value
  · cases value
  next pt table =>
  split at value
  · cases value
  · cases value
    exact ⟨table, rfl⟩

theorem unmap_mem (run : (vmmUnmap pagePml4 v).run s = some ((), t)) (table : lastTable s.mem pagePml4 v = some a) :
    t.mem = (setEntry s (frameOf a) (index 0 v) 0).mem := by
  have done := vmmUnmap_run run
  rw [table] at done
  obtain ⟨u, freed, rfl⟩ := done
  unfold setEntry
  dsimp only
  rw [freed.mem]

theorem unmap_absent (run : (vmmUnmap pagePml4 v).run s = some ((), t)) (table : lastTable s.mem pagePml4 v = none) : t = s := by
  have done := vmmUnmap_run run
  rwa [table] at done

theorem translateFrom_absent {d : Nat} (at_ : tableAt hwNext mem f ((routeFrom d v).take j) = some h) (small : j ≤ d)
    (absent : mem h (index (d - j) v) &&& pgPresent = 0) : translateFrom mem v d f = none := by
  induction j generalizing d f with
  | zero =>
      obtain rfl := Option.some.inj at_
      rw [Nat.sub_zero] at absent
      cases d with
      | zero => rw [translateFrom_zero, if_pos absent]
      | succ d => rw [translateFrom_succ, if_pos absent]
  | succ j ih =>
      obtain ⟨d, rfl⟩ := Nat.exists_eq_succ_of_ne_zero (by omega : d ≠ 0)
      rw [routeFrom, List.take_succ_cons] at at_
      obtain ⟨g, here, at_⟩ := tableAt_cons_some at_
      rw [Nat.succ_sub_succ] at absent
      have below := ih at_ (by omega) absent
      unfold hwNext at here
      split at here
      · cases here
      next present =>
      split at here
      · cases here
      next small =>
      obtain rfl := Option.some.inj here
      rw [translateFrom_succ, if_neg present, if_neg small, below]
      rfl

theorem translateFrom_large {d : Nat} (at_ : tableAt hwNext mem f ((routeFrom (d+1) v).take j) = some h) (upper : j ≤ d)
    (lower : d - j < 2) (present : mem h (index (d + 1 - j) v) &&& pgPresent ≠ 0)
    (huge : mem h (index (d + 1 - j) v) &&& pgHuge ≠ 0) : translateFrom mem v (d+1) f ≠ none := by
  induction j generalizing d f with
  | zero =>
      obtain rfl := Option.some.inj at_
      rw [Nat.sub_zero] at present huge lower
      rw [translateFrom_succ, if_neg present, if_pos huge, if_pos lower]
      exact Option.some_ne_none _
  | succ j ih =>
      obtain ⟨d, rfl⟩ := Nat.exists_eq_succ_of_ne_zero (by omega : d ≠ 0)
      rw [routeFrom, List.take_succ_cons] at at_
      obtain ⟨g, here, at_⟩ := tableAt_cons_some at_
      rw [Nat.succ_sub_succ] at present huge lower
      have below := ih at_ (by omega) lower present huge
      unfold hwNext at here
      split at here
      · cases here
      next present' =>
      split at here
      · cases here
      next small =>
      obtain rfl := Option.some.inj here
      rw [translateFrom_succ, if_neg present', if_neg small]
      intro nothing
      exact below (Option.map_eq_none_iff.mp nothing)

theorem FullTables.tableAt_next (tables : FullTables s cr3) (path : Path 512 512 3 q)
    (at_ : tableAt next s.mem (frameOf cr3) q = some f) : tableAt hwNext s.mem (frameOf cr3) q = some f := by
  induction q using List.reverseRecOn generalizing f with
  | nil => exact at_
  | append_singleton q i ih =>
      rw [tableAt_snoc] at at_ ⊢
      obtain ⟨h, before, leads⟩ := Option.bind_eq_some_iff.mp at_
      rw [ih path.left before, Option.bind_some]
      have entry := tables.entries q h i f path before leads
      obtain ⟨present, small, rfl⟩ := next_some leads
      unfold hwNext
      rw [if_neg present, if_neg (by simp [small]), entry.tableOf]

theorem route_split {rest : List Nat} (split : (routeFrom 3 v).take j = q ++ i :: rest) (small : j ≤ 3) :
    q = (routeFrom 3 v).take q.length ∧ i = index (3 - q.length) v ∧ q.length < j := by
  have length := congrArg List.length split
  rw [length_take_route small] at length
  simp only [List.length_append, List.length_cons] at length
  have before : ((routeFrom 3 v).take j).take (q.length + 1) = q ++ [i] := by
    rw [split, List.take_append, List.take_of_length_le (by omega)]
    simp
  rw [List.take_take, Nat.min_eq_left (by omega), take_route (by omega)] at before
  obtain ⟨first, last⟩ := List.append_inj' before rfl
  exact ⟨first.symm, (List.singleton_inj.mp last).symm, by omega⟩

theorem setEntry_entry {f' i' : Nat} (other : ¬(f' = f ∧ i' = i)) : (setEntry s f i e).mem f' i' = s.mem f' i' := by
  by_cases table : f' = f
  · subst table
    rw [setEntry_same, Function.update_of_ne]
    exact fun here => other ⟨rfl, here⟩
  · rw [setEntry_other table]

section Zero
variable (tables : FullTables s cr3)
include tables

theorem FullTables.zero_translate (small : j ≤ 3) (at_ : tableAt next s.mem (frameOf cr3) ((routeFrom 3 v).take j) = some f)
    (here : index (3 - j) v = i) : translate (SwiftBSD.Proof.Mm.setEntry s f i 0).mem cr3 v = none := by
  unfold SwiftBSD.Mm.translate
  rw [tables.tableOf_cr3]
  refine translateFrom_absent (j := j) (h := f) ?_ small ?_
  · rw [tableAt_congr, tables.tableAt_next (path_take v j) at_]
    intro q i' rest f' split before
    obtain ⟨first, -, short⟩ := route_split split small
    rw [setEntry_entry]
    rintro ⟨rfl, -⟩
    have path : Path 512 512 3 q := by
      rw [first]
      exact path_take v _
    have equal := tables.tree.unique q _ f' path (path_take v j) (tables.tableAt_hw path before) at_
    rw [equal, length_take_route small] at short
    omega
  · rw [setEntry_same, here, Function.update_self]
    rfl

theorem FullTables.zero_huge (huge : Huge s.mem cr3 v pd e)
    (off : ∀ j < 3, ¬(tableAt next s.mem (frameOf cr3) ((routeFrom 3 v).take j) = some f ∧ index (3 - j) v = i)) :
    translate (SwiftBSD.Proof.Mm.setEntry s f i 0).mem cr3 v ≠ none := by
  unfold SwiftBSD.Mm.translate
  rw [tables.tableOf_cr3]
  have last : (SwiftBSD.Proof.Mm.setEntry s f i 0).mem pd (index 1 v) = e := by
    rw [setEntry_entry, huge.entry]
    rintro ⟨rfl, here⟩
    exact off 2 (by decide) ⟨huge.at_, here⟩
  refine translateFrom_large (j := 2) (h := pd) ?_ (by decide) (by decide) (by rw [last]; exact huge.present) (by rw [last]; exact huge.huge)
  rw [tableAt_congr, tables.tableAt_next (path_take v 2) huge.at_]
  intro q i' rest f' split before
  obtain ⟨first, index, short⟩ := route_split split (by decide)
  rw [setEntry_entry]
  rintro ⟨rfl, rfl⟩
  refine off q.length (by omega) ⟨?_, index.symm⟩
  have path : Path 512 512 3 q := by
    rw [first]
    exact path_take v _
  rw [← first]
  exact tables.tableAt_hw path before

end Zero

/-- At the page of `v`, mapping, looking up and unmapping act on the address space in `CR3`, and on no other. -/
structure Acts (m : Machine) (spaces : List UInt64) (pagePml4 v : UInt64) : Prop where
  map : ∀ p f t, (vmmMap v p f).run m = some ((), t) → ∃ pt i, (vmmPtLookup pagePml4 v).run t = some (some (pt, i), t) ∧
    t.mem (frameOf pt) i = pteOf p f
  unmap : ∀ t, (vmmUnmap pagePml4 v).run m = some ((), t) → translate t.mem m.cr3 v = none
  mapOthers : ∀ p f t, (vmmMap v p f).run m = some ((), t) → ∀ r ∈ spaces, r ≠ m.cr3 → ∀ a, translate t.mem r a = translate m.mem r a
  unmapOthers : ∀ t, (vmmUnmap pagePml4 v).run m = some ((), t) → ∀ r ∈ spaces, r ≠ m.cr3 → ∀ a,
    translate t.mem r a = translate m.mem r a
  lookup : ∀ found t, (vmmPtLookup pagePml4 v).run m = some (found, t) → t = m

theorem pteOf_present (phys flags : UInt64) : pteOf phys flags &&& pgPresent ≠ 0 := by
  have bit : pgPresent.toNat.testBit 0 = true := by decide
  rw [Ne, and_bit (k := 0) rfl]
  unfold pteOf
  dsimp only
  split
  · simp only [UInt64.toNat_or, Nat.testBit_or, bit, Bool.or_true, Bool.true_or]
    exact Bool.noConfusion
  · simp only [UInt64.toNat_or, Nat.testBit_or, bit, Bool.or_true, Bool.true_or]
    exact Bool.noConfusion

section Calls
variable (all : Spaces m spaces) (active : m.cr3 ∈ spaces)
include all active

theorem Spaces.mapped (reserved : m.bitmap 0 = true) (enough : 3 ≤ (freeFrames m).card) {phys flags : UInt64}
    (run : (vmmMap v phys flags).run m = some ((), t)) : Mapped m t m.cr3 v (pteOf phys flags) := by
  unfold vmmMap at run
  rw [run_bind_some (x := get) rfl] at run
  exact vmmMapInCr3_mapped (all.tables _ active) reserved enough run

theorem Spaces.map_others (reserved : m.bitmap 0 = true) (enough : 3 ≤ (freeFrames m).card) {phys flags : UInt64}
    (low : v.toNat < 2 ^ 47) (run : (vmmMap v phys flags).run m = some ((), t)) (other : r ∈ spaces) (differ : r ≠ m.cr3)
    (a : UInt64) : translate t.mem r a = translate m.mem r a :=
  (all.tables r other).translate_same (fun _ table => all.map_same active other differ low
    (all.mapped active reserved enough run) table) a

theorem Spaces.unmap_others (run : (vmmUnmap pagePml4 v).run m = some ((), t))
    (ours : ∀ a, lastTable m.mem pagePml4 v = some a → LowTable m.mem m.cr3 (frameOf a)) (other : r ∈ spaces)
    (differ : r ≠ m.cr3) (a : UInt64) : translate t.mem r a = translate m.mem r a := by
  cases table : lastTable m.mem pagePml4 v with
  | none => rw [unmap_absent run table]
  | some pt =>
      refine (all.tables r other).translate_same (fun f isTable => ?_) a
      rw [unmap_mem run table, setEntry_other]
      rintro rfl
      exact all.apart _ active r other (Ne.symm differ) _ (ours pt table) isTable

end Calls

/-- The first frame of a 2 MB page, read as a page table, is one of the tables on the way to it. -/
def OnItself (mem : Mem) (cr3 v e : UInt64) : Prop :=
  ∃ j < 3, tableAt next mem (frameOf cr3) ((routeFrom 3 v).take j) = some (frameOf e) ∧ index (3 - j) v = index 0 v

section Own
variable (all : Spaces m spaces) (active : m.cr3 ∈ spaces) (own : pagePml4 ∈ spaces) (reserved : m.bitmap 0 = true)
  (enough : 3 ≤ (freeFrames m).card) (low : v.toNat < 2 ^ 47)
include all active reserved enough low

theorem acts_own (same : m.cr3 = pagePml4) :
    Acts m spaces pagePml4 v ↔ ∀ pd e, Huge m.mem pagePml4 v pd e → OnItself m.mem pagePml4 v e := by
  have tables := all.tables _ active
  constructor
  · intro acts pd e huge
    obtain ⟨t, run⟩ := vmmUnmap_total pagePml4 v m
    obtain ⟨a, table, frame⟩ := huge.lastTable
    have gone := acts.unmap t run
    rw [unmap_mem run table, frame] at gone
    rw [← same] at huge ⊢
    by_contra off
    refine tables.zero_huge huge (fun j small both => off ⟨j, small, both⟩) gone
  · intro condition
    have onRoute (a : UInt64) (table : lastTable m.mem pagePml4 v = some a) :
        ∃ j ≤ 3, tableAt next m.mem (frameOf m.cr3) ((routeFrom 3 v).take j) = some (frameOf a) ∧ index (3 - j) v = index 0 v := by
      have last := tables.lastTable v
      rw [same, table] at last
      rw [same]
      cases last with
      | table at_ => exact ⟨3, Nat.le_refl _, by rw [take_three]; exact at_, rfl⟩
      | huge huge here =>
          obtain ⟨j, small, at_, equal⟩ := condition _ _ huge
          exact ⟨j, small.le, by rw [here]; exact at_, equal⟩
    have ours (a : UInt64) (table : lastTable m.mem pagePml4 v = some a) : LowTable m.mem m.cr3 (frameOf a) := by
      obtain ⟨j, -, at_, -⟩ := onRoute a table
      exact lowTable_route low at_
    refine ⟨fun p f t run => ?_, fun t run => ?_, fun p f t run r other differ => all.map_others active reserved enough low run other differ,
      fun t run r other differ => all.unmap_others active run ours other differ, fun found t run => (vmmPtLookup_run run).1⟩
    · obtain ⟨pt, at_, entry⟩ := (all.mapped active reserved enough run).entry
      obtain ⟨a, table, rfl⟩ := lastTable_leaf at_
      rw [same] at table
      exact ⟨a, index 0 v, lookup_entry table entry (pteOf_present p f), entry⟩
    · cases table : lastTable m.mem pagePml4 v with
      | none =>
          rw [unmap_absent run table, tables.translate_walk]
          have last := tables.lastTable v
          rw [same, table] at last
          cases last with
          | absent ends notPresent =>
              rw [same, ends]
              unfold leaf
              rw [if_pos notPresent]
              rfl
      | some a =>
          obtain ⟨j, small, at_, equal⟩ := onRoute a table
          rw [unmap_mem run table]
          exact tables.zero_translate small at_ equal

include own

theorem Acts.seen (acts : Acts m spaces pagePml4 v) (differ : m.cr3 ≠ pagePml4) {phys : UInt64}
    (leads : next (pteOf phys 0) = some g) (readOnly : pteOf phys 0 &&& pgWrite = 0) :
    ∃ pt, lastTable m.mem pagePml4 v = some pt ∧ (m.mem (frameOf pt) (index 0 v) = pteOf phys 0 ∨
      tableAt next m.mem (frameOf m.cr3) (routeFrom 3 v) = some (frameOf pt) ∨ m.bitmap (frameOf pt) = false) := by
  obtain ⟨t, run⟩ := vmmMap_total v phys 0 m
  have mapped := all.mapped active reserved enough run
  obtain ⟨pt, i, found, entry⟩ := acts.map phys 0 t run
  obtain ⟨table, here⟩ := lookup_some found
  dsimp only at table here
  subst here
  rw [lastTable_same (all.tables _ own) fun f table => all.map_same active own (Ne.symm differ) low mapped table] at table
  refine ⟨pt, table, ?_⟩
  by_cases on : OnRoute t.mem m.cr3 v (frameOf pt)
  · right
    obtain ⟨j, small, at_⟩ := on
    rcases mapped.adds _ _ (path_take v j) at_ with old | ⟨free, -⟩
    · left
      obtain rfl | upper := small.eq_or_lt
      · rwa [take_three] at old
      · -- an entry above the page tables is writable
        have path : Path 512 512 3 ((routeFrom 3 v).take j ++ [index 0 v]) :=
          (path_take v j).snoc (by rw [length_take_route small]; exact upper) (index_lt 0 v)
        have upperEntry := mapped.tables.entries _ _ _ g path at_ (by rw [entry]; exact leads)
        rw [entry] at upperEntry
        exact (upperEntry.write readOnly).elim
    · exact .inr free
  · left
    rw [← entry, mapped.same _ on]

omit own reserved enough low in
theorem Acts.absent (acts : Acts m spaces pagePml4 v) {pt : UInt64} (table : lastTable m.mem pagePml4 v = some pt)
    (free : m.bitmap (frameOf pt) = false) : translate m.mem m.cr3 v = none := by
  obtain ⟨t, run⟩ := vmmUnmap_total pagePml4 v m
  have gone := acts.unmap t run
  have tables := all.tables _ active
  rwa [tables.translate_same (fun f isTable => ?_) v] at gone
  obtain ⟨q, path, at_⟩ := isTable
  have differ : f ≠ frameOf pt := by
    rintro rfl
    rw [(tables.taken q _ path at_).1] at free
    cases free
  rw [unmap_mem run table]
  exact setEntry_other differ

theorem acts_other (differ : m.cr3 ≠ pagePml4)
    (used : translate m.mem m.cr3 v = none → ∀ pd e, Huge m.mem pagePml4 v pd e → m.bitmap (frameOf e) = true) :
    Acts m spaces pagePml4 v ↔
      ∃ pd e, Huge m.mem pagePml4 v pd e ∧ tableAt next m.mem (frameOf m.cr3) (routeFrom 3 v) = some (frameOf e) := by
  have tables := all.tables _ own
  constructor
  · intro acts
    obtain ⟨pt, table, first⟩ := acts.seen all active own reserved enough low differ (by decide : next (pteOf 0 0) = some 0) (by decide)
    obtain ⟨pt', table', second⟩ := acts.seen all active own reserved enough low differ (by decide : next (pteOf 0x1000 0) = some 1) (by decide)
    rw [table] at table'
    obtain rfl := Option.some.inj table'
    have shared : tableAt next m.mem (frameOf m.cr3) (routeFrom 3 v) = some (frameOf pt) ∨ m.bitmap (frameOf pt) = false := by
      rcases first with zero | shared
      · rcases second with one | shared
        · rw [zero] at one
          exact absurd one (by decide)
        · exact shared
      · exact shared
    have last := tables.lastTable v
    rw [table] at last
    cases last with
    | table at_ =>
        have isTable : IsTable m.mem pagePml4 (frameOf pt) := ⟨_, path_routeFrom (index_lt 3 v), at_⟩
        rcases shared with leaf | free
        · have low := lowTable_route (j := 3) low (by rw [take_three]; exact leaf)
          exact (all.apart _ active _ own differ _ low isTable).elim
        · rw [(tables.taken _ _ (path_routeFrom (index_lt 3 v)) at_).1] at free
          cases free
    | huge huge here =>
        refine ⟨_, _, huge, ?_⟩
        rw [← here]
        rcases shared with leaf | free
        · exact leaf
        · have absent := acts.absent all active table free
          rw [here, used absent _ _ huge] at free
          cases free
  · rintro ⟨pd, e, huge, at_⟩
    obtain ⟨a, table, frame⟩ := huge.lastTable
    have ours (b : UInt64) (here : lastTable m.mem pagePml4 v = some b) : LowTable m.mem m.cr3 (frameOf b) := by
      rw [table] at here
      obtain rfl := Option.some.inj here
      rw [frame]
      exact lowTable_route (j := 3) low (by rw [take_three]; exact at_)
    refine ⟨fun p f t run => ?_, fun t run => ?_, fun p f t run r other differ => all.map_others active reserved enough low run other differ,
      fun t run r other differ => all.unmap_others active run ours other differ, fun found t run => (vmmPtLookup_run run).1⟩
    · have mapped := all.mapped active reserved enough run
      obtain ⟨pt, now, entry⟩ := mapped.entry
      rw [mapped.keeps _ _ (path_routeFrom (index_lt 3 v)) at_] at now
      obtain rfl := Option.some.inj now
      rw [← frame] at entry
      rw [← lastTable_same tables fun f table => all.map_same active own (Ne.symm differ) low mapped table] at table
      exact ⟨a, index 0 v, lookup_entry table entry (pteOf_present p f), entry⟩
    · rw [unmap_mem run table, frame]
      exact (all.tables _ active).zero_translate (Nat.le_refl 3) (by rw [take_three]; exact at_) rfl

theorem acts_iff :
    (m.cr3 = pagePml4 → (Acts m spaces pagePml4 v ↔ ∀ pd e, Huge m.mem pagePml4 v pd e → OnItself m.mem pagePml4 v e)) ∧
    (m.cr3 ≠ pagePml4 →
      (translate m.mem m.cr3 v = none → ∀ pd e, Huge m.mem pagePml4 v pd e → m.bitmap (frameOf e) = true) →
      (Acts m spaces pagePml4 v ↔
        ∃ pd e, Huge m.mem pagePml4 v pd e ∧ tableAt next m.mem (frameOf m.cr3) (routeFrom 3 v) = some (frameOf e))) :=
  ⟨acts_own all active reserved enough low, acts_other all active own reserved enough low⟩

end Own

/-- `page_pml4` in frame 272 and a clone of it in frame 300. -/
def twoSpaces (cr3 : UInt64) : Machine where
  mem f i := if f < 300 then bootWord 272 f i else bootWord 300 f i
  bitmap f := f < 303
  lastPhysPage := 65536
  freePageCount := 65536 - 303
  cr3 := cr3
  bounded := by decide

theorem twoSpaces_boot (cr3 : UInt64) {b : Nat} (root : b = 272 ∨ b = 300) : BootTables (twoSpaces cr3) b where
  words := by
    intro f i above below
    change (if f < 300 then bootWord 272 f i else bootWord 300 f i) = bootWord b f i
    rcases root with rfl | rfl
    · rw [if_pos (by omega)]
    · rw [if_neg (by omega)]
  taken := by
    intro f above below
    have small : f < 303 := by omega
    exact decide_eq_true small
  positive := by omega
  bound := by
    rcases root with rfl | rfl <;> decide

theorem twoSpaces_spaces (cr3 : UInt64) : Spaces (twoSpaces cr3) [addrOf 272, addrOf 300] := by
  have first := twoSpaces_boot cr3 (b := 272) (.inl rfl)
  have second := twoSpaces_boot cr3 (b := 300) (.inr rfl)
  have within {b f : Nat} (boot : BootTables (twoSpaces cr3) b) (table : IsTable (twoSpaces cr3).mem (addrOf b) f) : b ≤ f ∧ f < b + 3 := by
    obtain ⟨q, -, at_⟩ := table
    have bound := boot.bound
    rw [frameOf_addrOf (by omega)] at at_
    rcases boot.tableAt_cases at_ with ⟨-, rfl⟩ | ⟨-, rfl⟩ | ⟨-, rfl⟩ <;> omega
  have low {b f : Nat} (table : LowTable (twoSpaces cr3).mem (addrOf b) f) : IsTable (twoSpaces cr3).mem (addrOf b) f := by
    obtain ⟨q, path, at_⟩ := table
    exact ⟨q, path.grow (by decide), at_⟩
  constructor
  · intro r member
    rcases List.mem_pair.mp member with rfl | rfl
    · exact first.fullTables
    · exact second.fullTables
  · intro r member r' member' differ f table table'
    rcases List.mem_pair.mp member with rfl | rfl <;> rcases List.mem_pair.mp member' with rfl | rfl
    · exact differ rfl
    · have := within first (low table)
      have := within second table'
      omega
    · have := within second (low table)
      have := within first table'
      omega
    · exact differ rfl

theorem twoSpaces_enough (cr3 : UInt64) : 4 ≤ (freeFrames (twoSpaces cr3)).card := by
  have some_ : ({303, 304, 305, 306} : Finset Nat) ⊆ freeFrames (twoSpaces cr3) := by
    intro f member
    simp only [Finset.mem_insert, Finset.mem_singleton] at member
    unfold freeFrames
    rw [Finset.mem_filter, Finset.mem_range]
    change f < 65536 ∧ decide (f < 303) = false
    exact ⟨by omega, decide_eq_false (by omega)⟩
  exact Finset.card_le_card some_

theorem twoSpaces_stack (cr3 : UInt64) {pd : Nat} {e : UInt64} : ¬Huge (twoSpaces cr3).mem (addrOf 272) 0x7F000000 pd e := by
  intro huge
  have at_ := huge.at_
  rw [frameOf_addrOf (by decide)] at at_
  rcases (twoSpaces_boot cr3 (.inl rfl)).tableAt_cases at_ with ⟨route, -⟩ | ⟨route, -⟩ | ⟨route, -⟩ <;>
    exact absurd route (by decide)

theorem acts_iff_own : Acts (twoSpaces (addrOf 272)) [addrOf 272, addrOf 300] (addrOf 272) 0x7F000000 :=
  ((acts_iff (twoSpaces_spaces _) (List.mem_cons_self) (List.mem_cons_self) (by decide) ((Nat.le_succ 3).trans (twoSpaces_enough _)) (by decide)).1 rfl).mpr
    fun _ _ huge => (twoSpaces_stack _ huge).elim

/-- In a child, `vmm_pt_lookup` does not find what `vmm_map` has mapped. -/
theorem child_maps_elsewhere : Spaces (twoSpaces (addrOf 300)) [addrOf 272, addrOf 300] ∧
    3 ≤ (freeFrames (twoSpaces (addrOf 300))).card ∧
    ¬Acts (twoSpaces (addrOf 300)) [addrOf 272, addrOf 300] (addrOf 272) 0x7F000000 := by
  refine ⟨twoSpaces_spaces _, (Nat.le_succ 3).trans (twoSpaces_enough _), fun acts => ?_⟩
  have differ : (twoSpaces (addrOf 300)).cr3 ≠ addrOf 272 := by decide
  have all := acts_other (twoSpaces_spaces _) (by decide) (List.mem_cons_self) (by decide) ((Nat.le_succ 3).trans (twoSpaces_enough _)) (by decide) differ
    fun _ _ _ huge => (twoSpaces_stack _ huge).elim
  obtain ⟨pd, e, huge, -⟩ := all.mp acts
  exact twoSpaces_stack _ huge

end SwiftBSD.Proof.Mm
