import SwiftBSD.Proof.Mm.MapAny

namespace SwiftBSD.Proof.Mm
open Lib SwiftBSD.Mm

variable {d : Nat} {s t u : Machine} {mem : Mem} {f : Nat} {q : List Nat} {cr3 virt phys flags a : UInt64}

/-- `vmm_map_in_cr3`, with the pointers through which it reads and writes tables. -/
def mapPointers (cr3 virt phys flags : UInt64) : MmM (List UInt64) := do
  let user := decide (pml4Lookup virt < 256)
  let pdpt ← getOrAllocTable cr3 (pml4Lookup virt) false user
  let pd ← getOrAllocTable pdpt (pdptLookup virt) false user
  let pt ← getOrAllocTable pd (pdLookup virt) true user
  if pt = 0 then return [cr3, pdpt, pd]
  let e := phys &&& pageMask ||| pgPresent ||| flags &&& 0xFFF
  setWord pt (ptLookup virt) (if flags &&& pgNx ≠ 0 then e ||| pgNx else e)
  return [cr3, pdpt, pd, pt]

theorem run_of_mapPointers {used : List UInt64} (run : (mapPointers cr3 virt phys flags).run s = some (used, t)) :
    (vmmMapInCr3 cr3 virt phys flags).run s = some ((), t) := by
  unfold mapPointers at run
  unfold vmmMapInCr3
  dsimp only at run ⊢
  obtain ⟨pdpt, s₁, first, run⟩ := run_bind_eq_some.mp run
  obtain ⟨pd, s₂, second, run⟩ := run_bind_eq_some.mp run
  obtain ⟨pt, s₃, third, run⟩ := run_bind_eq_some.mp run
  rw [run_bind_some first, run_bind_some second, run_bind_some third]
  split at run
  · next null =>
      rw [if_pos null]
      cases run
      rfl
  · next here =>
      rw [if_neg here]
      obtain ⟨_, w, write, run⟩ := run_bind_eq_some.mp run
      cases run
      exact write

theorem mapPointers_total (cr3 virt phys flags : UInt64) (s : Machine) :
    ∃ used t, (mapPointers cr3 virt phys flags).run s = some (used, t) := by
  unfold mapPointers
  dsimp only
  obtain ⟨pdpt, s₁, first⟩ := getOrAllocTable_total cr3 (pml4Lookup virt) false (decide (pml4Lookup virt < 256)) s
  rw [run_bind_some first]
  obtain ⟨pd, s₂, second⟩ := getOrAllocTable_total pdpt (pdptLookup virt) false (decide (pml4Lookup virt < 256)) s₁
  rw [run_bind_some second]
  obtain ⟨pt, s₃, third⟩ := getOrAllocTable_total pd (pdLookup virt) true (decide (pml4Lookup virt < 256)) s₂
  rw [run_bind_some third]
  split
  · exact ⟨_, _, rfl⟩
  · exact ⟨_, _, rfl⟩

/-- Only tables of the address space and new frames are written, no null pointer is followed, and no address changes its
meaning. -/
structure Unharmed (s t : Machine) (cr3 : UInt64) (used : List UInt64) : Prop where
  frames : ∀ f, t.mem f ≠ s.mem f → HwTable 512 s.mem (frameOf cr3) f ∨ s.bitmap f = false ∧ t.bitmap f = true
  pointers : 0 ∉ used
  meaning : ∀ a, (translate t.mem cr3 a).map Translation.access = (translate s.mem cr3 a).map Translation.access

theorem tablesToMake_le (mem : Mem) (virt : UInt64) (d p : Nat) : tablesToMake mem virt d p ≤ d := by
  induction d generalizing p with
  | zero => exact Nat.le_refl _
  | succ d ih =>
      unfold tablesToMake
      split
      · exact Nat.le_refl _
      · exact (ih _).trans (Nat.le_succ d)

theorem Grows.unharmed {used : List UInt64} (grows : Grows 512 s t cr3 virt) (pointers : 0 ∉ used) : Unharmed s t cr3 used where
  frames := by
    intro f changed
    have table : HwTable 512 t.mem (frameOf cr3) f := by
      by_contra off
      exact changed (grows.same f off)
    have used' := grows.tables.taken f table
    obtain ⟨q, path, at_⟩ := table
    exact (grows.adds q f path at_).imp (fun old => ⟨q, path, old⟩) fun free => ⟨free, used'⟩
  pointers := pointers
  meaning := by
    intro a
    unfold SwiftBSD.Mm.translate
    rw [grows.tables.tableOf_cr3]
    exact grows.meaning a (index_lt 3 a)

section Full
variable (space : HwTables 512 s cr3) (plain : PlainRoute s.mem cr3 virt)
  (nonzero : ∀ f, HwTable 512 s.mem (frameOf cr3) f → f ≠ 0) (reserved : s.bitmap 0 = true)
include space plain nonzero reserved

omit space plain in
theorem Grows.pointer {q : List Nat} (grows : Grows 512 s t cr3 virt) (path : Path 512 512 3 q)
    (at_ : tableAt hwNext t.mem (frameOf cr3) q = some (frameOf a)) : a ≠ 0 := by
  rintro rfl
  rcases grows.adds q _ path at_ with old | free
  · exact nonzero _ ⟨q, path, old⟩ rfl
  · exact absurd (reserved.symm.trans free) (by decide)

/-- If fewer frames are free than tables are missing, the call does no harm if and only if it is the page table that
cannot be made. -/
theorem map_full_iff (full : (freeFrames s).card < tablesToMake s.mem virt 3 (frameOf cr3)) :
    ∃ used t, (mapPointers cr3 virt phys flags).run s = some (used, t) ∧ (vmmMapInCr3 cr3 virt phys flags).run s = some ((), t) ∧
      (Unharmed s t cr3 used ↔ tablesToMake s.mem virt 3 (frameOf cr3) = (freeFrames s).card + 1) := by
  have root : cr3 ≠ 0 := by
    rintro rfl
    exact nonzero _ ⟨[], .nil, rfl⟩ rfl
  suffices result : ∃ used t, (mapPointers cr3 virt phys flags).run s = some (used, t) ∧
      (Unharmed s t cr3 used ↔ tablesToMake s.mem virt 3 (frameOf cr3) = (freeFrames s).card + 1) by
    obtain ⟨used, t, run, iff⟩ := result
    exact ⟨used, t, run, run_of_mapPointers run, iff⟩
  obtain ⟨used, t, run⟩ := mapPointers_total cr3 virt phys flags s
  refine ⟨used, t, run, ?_⟩
  unfold mapPointers at run
  dsimp only at run
  obtain ⟨pdpt, s₁, first, run⟩ := run_bind_eq_some.mp run
  obtain ⟨pd, s₂, second, run⟩ := run_bind_eq_some.mp run
  obtain ⟨pt, s₃, third, run⟩ := run_bind_eq_some.mp run
  have low := index_lt 3 virt
  have through (null : pdpt = 0 ∨ pd = 0) : ¬Unharmed s t cr3 used := by
    intro unharmed
    apply unharmed.pointers
    split at run
    · cases run
      rcases null with rfl | rfl <;> simp
    · obtain ⟨_, w, -, run⟩ := run_bind_eq_some.mp run
      cases run
      rcases null with rfl | rfl <;> simp
  rcases getOrAllocTable_grows (d := 2) space plain (Nat.le_refl _) low (by decide) rfl rfl reserved (fun wrong => absurd wrong (by decide)) first with
    ⟨null, -, empty, all⟩ | ⟨more₁, at₁, card₁⟩
  · have none_ : (freeFrames s).card = 0 := by rw [empty, Finset.card_empty]
    simp only [Nat.reduceAdd] at all
    exact ⟨fun unharmed => (through (.inl null) unharmed).elim, fun one => by omega⟩
  simp only [Nat.reduceAdd] at card₁
  have reserved₁ := more₁.grows 0 reserved
  rcases getOrAllocTable_grows (d := 1) more₁.tables more₁.plain (Nat.le_refl _) low (by decide) rfl at₁ reserved₁
    (fun wrong => absurd wrong (by decide)) second with ⟨null, -, empty, all⟩ | ⟨more₂, at₂, card₂⟩
  · have none_ : (freeFrames s₁).card = 0 := by rw [empty, Finset.card_empty]
    simp only [Nat.reduceAdd] at all
    exact ⟨fun unharmed => (through (.inr null) unharmed).elim, fun one => by omega⟩
  simp only [Nat.reduceAdd] at card₂
  have more := more₁.trans more₂
  have few := tablesToMake_le s₂.mem virt 1 (frameOf pd)
  have empty : (freeFrames s₂).card = 0 := by omega
  have blank : next (s₂.mem (frameOf pd) (index 1 virt)) = none := by
    cases leads : hwNext (s₂.mem (frameOf pd) (index 1 virt)) with
    | none => exact hwNext_none.mp leads
    | some g =>
        have there : tablesToMake s₂.mem virt 1 (frameOf pd) = 0 := by
          rw [tablesToMake, leads]
          rfl
        omega
  have path₁ := path_take_low low 1
  have path₂ := path_take_low low 2
  have last : true = false → s₂.mem (frameOf pd) (pdLookup virt) &&& pgPresent ≠ 0 →
    s₂.mem (frameOf pd) (pdLookup virt) &&& pgHuge = 0 := fun wrong => absurd wrong (by decide)
  have step := getOrAllocTable_step last (more.grows 0 reserved) (more.tables.taken _ ⟨_, path₂, at₂⟩) third
  cases step with
  | full =>
      rw [if_pos rfl] at run
      cases run
      have first_ := more₁.pointer nonzero reserved path₁ at₁
      have second_ := more.pointer nonzero reserved path₂ at₂
      refine ⟨fun _ => by omega, fun _ => more.unharmed ?_⟩
      simp [root.symm, first_.symm, second_.symm]
  | there leads => 
      have wrong := blank.symm.trans leads
      cases wrong
  | @made g _ _ bound free =>
      have member : g ∈ freeFrames s₂ := Finset.mem_filter.mpr ⟨Finset.mem_range.mpr bound, free⟩
      have none_ := Finset.card_eq_zero.mp empty
      exact absurd member (Finset.eq_empty_iff_forall_notMem.mp none_ _)

end Full

theorem getOrAllocTable_none {parent : UInt64} {i : Nat} {isPd user : Bool} (empty : freeFrames s = ∅)
    (absent : s.mem (frameOf parent) i &&& pgPresent = 0) : (getOrAllocTable parent i isPd user).run s = some (0, s) := by
  obtain ⟨a, u, alloc⟩ := pageAlloc_total s
  obtain ⟨rfl, rfl⟩ := pageAlloc_empty alloc empty
  unfold getOrAllocTable
  rw [run_bind_some (x := word _ _) rfl, if_neg (not_not.mpr absent), run_bind_some alloc]
  rfl

theorem noFrames_bounded : 65536 ≤ maxPages := by decide

/-- No frame is free, the PML4 in frame 272 has no entries, and frame 0 holds what looks like an entry. -/
def noFrames : Machine where
  mem f i := if f = 0 ∧ i = 1 then 0x200003 else if f = 512 ∧ i = 504 then 0x300003 else 0
  bitmap _ := true
  lastPhysPage := 65536
  freePageCount := 0
  cr3 := 0x110000
  bounded := noFrames_bounded

theorem noFrames_zero (i : Nat) : noFrames.mem 272 i = 0 := rfl

theorem noFrames_root (i : Nat) : hwNext (noFrames.mem 272 i) = none := by rw [noFrames_zero, hwNext_zero]

theorem noFrames_empty : freeFrames noFrames = ∅ :=
  Finset.filter_eq_empty_iff.mpr fun _ _ wrong => nomatch (show true = false from wrong)

theorem noFrames_table (at_ : tableAt hwNext noFrames.mem (frameOf 0x110000) q = some f) : q = [] ∧ f = 272 := by
  cases q with
  | nil => exact ⟨rfl, (Option.some.inj at_).symm⟩
  | cons i q =>
      obtain ⟨g, leads, -⟩ := tableAt_cons_some at_
      exact nomatch (noFrames_root i).symm.trans leads

theorem noFrames_space : HwTables 512 noFrames 0x110000 where
  aligned := by decide
  bound := by decide
  tree := ⟨fun q q' f _ _ at_ at' => by rw [(noFrames_table at_).1, (noFrames_table at').1]⟩
  small := by
    intro q f i _ _ at_ present
    obtain ⟨-, rfl⟩ := noFrames_table at_
    rw [noFrames_zero] at present
    exact (present rfl).elim
  taken := fun _ _ => rfl

theorem noFrames_plain (virt : UInt64) : PlainRoute noFrames.mem 0x110000 virt := by
  intro j f g _ at_ leads
  obtain ⟨-, rfl⟩ := noFrames_table at_
  exact nomatch (noFrames_root _).symm.trans leads

theorem noFrames_nonzero (f : Nat) (table : HwTable 512 noFrames.mem (frameOf 0x110000) f) : f ≠ 0 := by
  obtain ⟨q, -, at_⟩ := table
  obtain ⟨-, rfl⟩ := noFrames_table at_
  decide

theorem noFrames_full (virt : UInt64) : (freeFrames noFrames).card < tablesToMake noFrames.mem virt 3 (frameOf 0x110000) := by
  have root : frameOf 0x110000 = 272 := rfl
  rw [noFrames_empty, root, tablesToMake, noFrames_root]
  exact Nat.zero_lt_succ 2

theorem map_full_iff_none : ∃ used t, (mapPointers 0x110000 0x7F000000 0x5000 7).run noFrames = some (used, t) ∧
    (vmmMapInCr3 0x110000 0x7F000000 0x5000 7).run noFrames = some ((), t) ∧
    (Unharmed noFrames t 0x110000 used ↔
      tablesToMake noFrames.mem 0x7F000000 3 (frameOf 0x110000) = (freeFrames noFrames).card + 1) :=
  map_full_iff noFrames_space (noFrames_plain _) noFrames_nonzero rfl (noFrames_full _)

/-- The entry is written to a frame that is no table. -/
theorem null_table_used : HwTables 512 noFrames 0x110000 ∧ PlainRoute noFrames.mem 0x110000 0x7F000000 ∧
    (∀ f, HwTable 512 noFrames.mem (frameOf 0x110000) f → f ≠ 0) ∧ freeFrames noFrames = ∅ ∧
    ∃ used t, (mapPointers 0x110000 0x7F000000 0x5000 7).run noFrames = some (used, t) ∧
      (vmmMapInCr3 0x110000 0x7F000000 0x5000 7).run noFrames = some ((), t) ∧
      0 ∈ used ∧ t.mem 768 0 ≠ noFrames.mem 768 0 ∧ ¬HwTable 512 noFrames.mem (frameOf 0x110000) 768 ∧
      noFrames.bitmap 768 = true ∧ ¬Unharmed noFrames t 0x110000 used := by
  have first : (getOrAllocTable 0x110000 (pml4Lookup 0x7F000000) false true).run noFrames = some (0, noFrames) :=
    getOrAllocTable_none noFrames_empty rfl
  have second : (getOrAllocTable 0 (pdptLookup 0x7F000000) false true).run noFrames = some (0x200000, noFrames) := rfl
  have third : (getOrAllocTable 0x200000 (pdLookup 0x7F000000) true true).run noFrames = some (0x300000, noFrames) := rfl
  have user : decide (pml4Lookup 0x7F000000 < 256) = true := rfl
  have run : (mapPointers 0x110000 0x7F000000 0x5000 7).run noFrames =
      some ([0x110000, 0, 0x200000, 0x300000], setEntry noFrames 768 0 0x5007) := by
    unfold mapPointers
    dsimp only
    rw [user, run_bind_some first, run_bind_some second, run_bind_some third]
    rfl
  refine ⟨noFrames_space, noFrames_plain _, noFrames_nonzero, noFrames_empty, _, _, run, run_of_mapPointers run, by decide, ?_, ?_,
    rfl, fun unharmed => unharmed.pointers (by decide)⟩
  · rw [setEntry_same, Function.update_self]
    decide
  · rintro ⟨q, -, at_⟩
    exact absurd (noFrames_table at_).2 (by decide)

end SwiftBSD.Proof.Mm
