import SwiftBSD.Proof.Mm.Map

namespace SwiftBSD.Proof.Mm
open Lib SwiftBSD.Mm

variable {m s t u : Machine} {mem mem' : Mem} {p f g h i j : Nat} {q : List Nat} {cr3 pagePml4 virt virt' e a : UInt64}

/-- The page directory maps 2 MB around an address by the entry `e`. -/
structure Huge (mem : Mem) (cr3 virt : UInt64) (pd : Nat) (e : UInt64) : Prop where
  at_ : tableAt next mem (frameOf cr3) ((routeFrom 3 virt).take 2) = some pd
  entry : mem pd (index 1 virt) = e
  present : e &&& pgPresent ≠ 0
  huge : e &&& pgHuge ≠ 0

/-- The table in which the kernel looks for the last entry of an address. -/
inductive LastTable (mem : Mem) (cr3 virt : UInt64) : Option UInt64 → Prop
  | absent {d : Nat} {e : UInt64} (ends : walk mem virt 3 (frameOf cr3) = (d, e)) (notPresent : e &&& pgPresent = 0) :
      LastTable mem cr3 virt none
  | table {a : UInt64} (at_ : tableAt next mem (frameOf cr3) (routeFrom 3 virt) = some (frameOf a)) :
      LastTable mem cr3 virt (some a)
  | huge {a : UInt64} {pd : Nat} {e : UInt64} (huge : Huge mem cr3 virt pd e) (here : frameOf a = frameOf e) :
      LastTable mem cr3 virt (some a)

/-- The walk of the kernel, as a function of the memory. -/
def lastTable (mem : Mem) (pagePml4 virt : UInt64) : Option UInt64 :=
  let e := mem (frameOf pagePml4) (index 3 virt)
  if e &&& pgPresent = 0 then none
  else
    let e := mem (frameOf (e &&& pageMask)) (index 2 virt)
    if e &&& pgPresent = 0 then none
    else
      let e := mem (frameOf (e &&& pageMask)) (index 1 virt)
      if e &&& pgPresent = 0 then none else some (e &&& pageMask)

theorem next_of_present (present : e &&& pgPresent ≠ 0) (small : e &&& pgHuge = 0) : next e = some (frameOf e) := by
  unfold next
  rw [if_neg present, if_neg (by simp [small])]

theorem next_absent (absent : e &&& pgPresent = 0) : next e = none := if_pos absent

theorem FullTables.lastTable (tables : FullTables s cr3) (virt : UInt64) :
    LastTable s.mem cr3 virt (lastTable s.mem cr3 virt) := by
  have path (j : Nat) (small : j < 3) : Path 512 512 3 ((routeFrom 3 virt).take j ++ [index (3 - j) virt]) := by
    rw [← take_route small]
    exact path_take virt (j+1)
  unfold SwiftBSD.Proof.Mm.lastTable
  dsimp only
  split
  · next absent => exact .absent (walk_stop (next_absent absent)) absent
  next present₃ =>
  have small₃ := tables.small [] (frameOf cr3) (index 3 virt) (path 0 (by decide)) (by decide) rfl
  have leads₃ := next_of_present present₃ small₃
  have at₂ : tableAt next s.mem (frameOf cr3) ((routeFrom 3 virt).take 1) = some (frameOf (s.mem (frameOf cr3) (index 3 virt))) := by
    change tableAt next s.mem (frameOf cr3) [index 3 virt] = _
    rw [tableAt_cons leads₃]
    rfl
  rw [frameOf_pageMask]
  generalize frameOf (s.mem (frameOf cr3) (index 3 virt)) = pdpt at at₂
  split
  · next absent =>
      refine .absent (d := 2) ?_ absent
      rw [walk_from at₂ (by decide)]
      exact walk_stop (next_absent absent)
  next present₂ =>
  have small₂ := tables.small _ pdpt (index 2 virt) (path 1 (by decide)) (by rw [length_take_route (by decide)]; decide) at₂
  have leads₂ := next_of_present present₂ small₂
  have at₁ : tableAt next s.mem (frameOf cr3) ((routeFrom 3 virt).take 2) = some (frameOf (s.mem pdpt (index 2 virt))) := by
    rw [take_route (by decide), tableAt_snoc, at₂]
    exact leads₂
  rw [frameOf_pageMask]
  generalize frameOf (s.mem pdpt (index 2 virt)) = pd at at₁
  split
  · next absent =>
      refine .absent (d := 1) ?_ absent
      rw [walk_from at₁ (by decide)]
      exact walk_stop (next_absent absent)
  next present₁ =>
  by_cases large : s.mem pd (index 1 virt) &&& pgHuge = 0
  · refine .table ?_
    rw [← take_three, take_route (by decide), tableAt_snoc, at₁, frameOf_pageMask]
    exact next_of_present present₁ large
  · exact .huge ⟨at₁, rfl, present₁, large⟩ frameOf_pageMask

theorem lookup_index (virt : UInt64) : pml4Lookup virt = index 3 virt ∧ pdptLookup virt = index 2 virt ∧
    pdLookup virt = index 1 virt ∧ ptLookup virt = index 0 virt := ⟨rfl, rfl, rfl, rfl⟩

theorem vmmPtLookup_run {found : Option (UInt64 × Nat)} (run : (vmmPtLookup pagePml4 virt).run s = some (found, t)) :
    t = s ∧ found = match lastTable s.mem pagePml4 virt with
      | none => none
      | some pt => if s.mem (frameOf pt) (index 0 virt) &&& pgPresent = 0 then none else some (pt, index 0 virt) := by
  unfold vmmPtLookup at run
  obtain ⟨three, two, one, zero⟩ := lookup_index virt
  rw [three, two, one, zero] at run
  rw [run_bind_some (x := word _ _) rfl] at run
  unfold lastTable
  dsimp only
  split at run
  · next absent =>
      obtain ⟨rfl, rfl⟩ := pure_run run
      rw [if_pos absent]
      exact ⟨rfl, rfl⟩
  next present₃ =>
  rw [if_neg present₃]
  rw [run_bind_some (x := word _ _) rfl] at run
  split at run
  · next absent =>
      obtain ⟨rfl, rfl⟩ := pure_run run
      rw [if_pos absent]
      exact ⟨rfl, rfl⟩
  next present₂ =>
  rw [if_neg present₂]
  rw [run_bind_some (x := word _ _) rfl] at run
  split at run
  · next absent =>
      obtain ⟨rfl, rfl⟩ := pure_run run
      rw [if_pos absent]
      exact ⟨rfl, rfl⟩
  next present₁ =>
  rw [if_neg present₁]
  rw [run_bind_some (x := word _ _) rfl] at run
  split at run
  · next absent =>
      obtain ⟨rfl, rfl⟩ := pure_run run
      exact ⟨rfl, (if_pos absent).symm⟩
  · next present =>
      obtain ⟨rfl, rfl⟩ := pure_run run
      exact ⟨rfl, (if_neg present).symm⟩

structure Freed (s u : Machine) (f : Nat) : Prop where
  mem : u.mem = s.mem
  register : u.cr3 = s.cr3
  last : u.lastPhysPage = s.lastPhysPage
  frames : ∀ h, u.bitmap h = true → s.bitmap h = true
  others : ∀ h, h ≠ f → u.bitmap h = s.bitmap h

theorem Freed.refl (s : Machine) (f : Nat) : Freed s s f := ⟨rfl, rfl, rfl, fun _ used => used, fun _ _ => rfl⟩

theorem pageFree_run (run : (pageFree a).run s = some ((), u)) : Freed s u (frameOf a) := by
  unfold pageFree at run
  rw [run_bind_some (x := get) rfl] at run
  dsimp only at run
  split at run
  · obtain ⟨-, rfl⟩ := pure_run run
    exact .refl s _
  split at run
  · cases run
    refine ⟨rfl, rfl, rfl, fun h used => ?_, fun h other => Function.update_of_ne other _ _⟩
    dsimp only at used
    rw [Function.update_apply] at used
    split at used
    · cases used
    · exact used
  · obtain ⟨-, rfl⟩ := pure_run run
    exact .refl s _

theorem vmmUnmap_run (run : (vmmUnmap pagePml4 virt).run s = some ((), t)) :
    match lastTable s.mem pagePml4 virt with
    | none => t = s
    | some pt => ∃ u, Freed s u (frameOf (s.mem (frameOf pt) (index 0 virt))) ∧ t = setEntry u (frameOf pt) (index 0 virt) 0 := by
  unfold vmmUnmap at run
  obtain ⟨three, two, one, zero⟩ := lookup_index virt
  rw [three, two, one, zero] at run
  rw [run_bind_some (x := word _ _) rfl] at run
  unfold lastTable
  dsimp only
  split at run
  · next absent =>
      rw [if_pos absent]
      exact (pure_run run).2.symm
  next present₃ =>
  rw [if_neg present₃]
  rw [run_bind_some (x := word _ _) rfl] at run
  split at run
  · next absent =>
      rw [if_pos absent]
      exact (pure_run run).2.symm
  next present₂ =>
  rw [if_neg present₂]
  rw [run_bind_some (x := word _ _) rfl] at run
  split at run
  · next absent =>
      rw [if_pos absent]
      exact (pure_run run).2.symm
  next present₁ =>
  rw [if_neg present₁]
  rw [run_bind_some (x := word _ _) rfl] at run
  split at run
  · obtain ⟨_, u, free, run⟩ := run_bind_eq_some.mp run
    have freed := pageFree_run free
    rw [frameOf_pageMask] at freed
    exact ⟨u, freed, setWord_run run⟩
  · exact ⟨s, .refl s _, setWord_run run⟩

end SwiftBSD.Proof.Mm
