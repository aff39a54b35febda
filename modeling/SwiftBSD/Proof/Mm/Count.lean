import SwiftBSD.Lib.Moves
import SwiftBSD.Proof.Mm.Enough

namespace SwiftBSD.Proof.Mm
open Lib SwiftBSD.Mm

variable {m s t : Machine} {a cr3 : UInt64}

/-- A relation that taking a frame and writing a word respect. -/
class Respects (R : Machine → Machine → Prop) : Prop extends IsPreorder Machine R where
  alloc : Moves R pageAlloc
  write : ∀ phys i e, Moves R (setWord phys i e)

section Respects
variable (R : Machine → Machine → Prop) [Respects R]

theorem moves_word (phys : UInt64) (i : Nat) : Moves R (word phys i) := .bind .get fun _ => .pure _

theorem moves_zero (phys : UInt64) : Moves R (forRange (fun i => setWord phys i 0) 0 512) :=
  .forRange (fun i => Respects.write _ i _) 0 512

theorem moves_vmmAllocPage : Moves R vmmAllocPage := by
  refine .bind Respects.alloc fun phys => ?_
  split
  · exact .pure _
  · exact .bind (moves_zero R phys) fun _ => .pure _

theorem moves_cowEntry (parent child : UInt64) (i : Nat) : Moves R (cowEntry parent child i) := by
  refine .bind (moves_word R _ _) fun e => ?_
  split
  · exact Respects.write _ _ _
  split
  · exact .bind (Respects.write _ _ _) fun _ => Respects.write _ _ _
  · exact Respects.write _ _ _

theorem moves_clonePtCow (parent : UInt64) : Moves R (clonePtCow parent) := by
  refine .bind (moves_vmmAllocPage R) fun child => ?_
  split
  · exact .pure _
  · exact .bind (.forRange (fun i => moves_cowEntry R _ _ i) 0 512) fun _ => .pure _

theorem moves_rwEntry (parent child : UInt64) (user : Bool) (i : Nat) : Moves R (rwEntry parent child user i) := by
  refine .bind (moves_word R _ _) fun e => ?_
  split
  · exact Respects.write _ _ _
  split
  · exact Respects.write _ _ _
  · exact Respects.write _ _ _

theorem moves_cloneTableRw (parent : UInt64) (user : Bool) : Moves R (cloneTableRw parent user) := by
  refine .bind (moves_vmmAllocPage R) fun child => ?_
  split
  · exact .pure _
  · exact .bind (.forRange (fun i => moves_rwEntry R _ _ _ i) 0 512) fun _ => .pure _

theorem moves_cloneEntries {copy : UInt64 → MmM UInt64} {descend : UInt64 → UInt64 → MmM (Option Unit)}
    (copies : ∀ table, Moves R (copy table)) (descends : ∀ p c, Moves R (descend p c)) (n : Nat) (parent child : UInt64) :
    Moves R (cloneEntries copy descend n parent child) := by
  refine .search (fun i => .bind (moves_word R _ _) fun e => ?_) 0 n
  split
  · exact .bind (Respects.write _ _ _) fun _ => .pure _
  split
  · exact .bind (Respects.write _ _ _) fun _ => .pure _
  refine .bind (copies _) fun table => ?_
  split
  · exact .pure _
  · exact .bind (Respects.write _ _ _) fun _ => descends _ _

theorem moves_clonePt (parent child : UInt64) : Moves R (clonePt parent child) :=
  .bind (.forRange (fun i => moves_cowEntry R _ _ i) 0 512) fun _ => .pure _

theorem moves_clonePd (parent child : UInt64) : Moves R (clonePd parent child) :=
  moves_cloneEntries R (moves_clonePtCow R) (moves_clonePt R) 512 _ _

theorem moves_clonePdpt (parent child : UInt64) : Moves R (clonePdpt parent child) :=
  moves_cloneEntries R (fun _ => moves_cloneTableRw R _ _) (moves_clonePd R) 512 _ _

theorem moves_clone_rest (parent child : UInt64) : Moves R (do
    forRange (highEntry parent child) 256 256
    match ← cloneEntries (cloneTableRw · true) clonePdpt 256 parent child with
    | some () => return 0
    | none => return child) := by
  refine .bind (.forRange (fun i => .bind (moves_word R _ _) fun _ => Respects.write _ _ _) 256 256) fun _ => ?_
  refine .bind (moves_cloneEntries R (fun _ => moves_cloneTableRw R _ _) (moves_clonePdpt R) 256 _ _) fun r => ?_
  cases r with
  | some _ => exact .pure _
  | none => exact .pure _

theorem moves_vmmClonePml4 (parent : UInt64) : Moves R (vmmClonePml4 parent) := by
  refine .bind (moves_vmmAllocPage R) fun child => ?_
  split
  · exact .pure _
  · exact moves_clone_rest R parent child

theorem moves_getOrAllocTable (parent : UInt64) (idx : Nat) (isPd user : Bool) :
    Moves R (getOrAllocTable parent idx isPd user) := by
  refine .bind (moves_word R _ _) fun e => ?_
  split
  · split
    · refine .bind Respects.alloc fun pt => ?_
      split
      · exact .pure _
      · refine .bind (moves_zero R _) fun _ => .bind (.forRange (fun i => Respects.write _ _ _) 0 512) fun _ => ?_
        exact .bind (Respects.write _ _ _) fun _ => .pure _
    · exact .pure _
  · refine .bind Respects.alloc fun paddr => ?_
    split
    · exact .pure _
    · exact .bind (moves_zero R _) fun _ => .bind (Respects.write _ _ _) fun _ => .pure _

theorem moves_vmmMapInCr3 (cr3 virt phys flags : UInt64) : Moves R (vmmMapInCr3 cr3 virt phys flags) := by
  refine .bind (moves_getOrAllocTable R _ _ _ _) fun pdpt => .bind (moves_getOrAllocTable R _ _ _ _) fun pd => ?_
  refine .bind (moves_getOrAllocTable R _ _ _ _) fun pt => ?_
  split
  · exact .pure _
  · exact Respects.write _ _ _

theorem moves_vmmMap (virt phys flags : UInt64) : Moves R (vmmMap virt phys flags) :=
  .bind .get fun _ => moves_vmmMapInCr3 R _ _ _ _

end Respects

/-- `t` has fewer free frames than `m`, and `free_page_count` has gone down by as many. -/
structure Spends (m t : Machine) : Prop where
  last : t.lastPhysPage = m.lastPhysPage
  spent : ∃ k, (freeFrames t).card + k = (freeFrames m).card ∧ t.freePageCount = m.freePageCount - .ofNat k

theorem Spends.refl (m : Machine) : Spends m m := ⟨rfl, 0, rfl, by simp⟩

theorem Spends.trans (first : Spends m s) (second : Spends s t) : Spends m t := by
  obtain ⟨k, card, count⟩ := first.spent
  obtain ⟨l, card', count'⟩ := second.spent
  refine ⟨second.last.trans first.last, k + l, by omega, ?_⟩
  rw [count', count]
  have sum : UInt64.ofNat (k + l) = UInt64.ofNat k + UInt64.ofNat l := UInt64.ofNat_add k l
  rw [sum]
  grind

theorem freeFrames_card_le (m : Machine) : (freeFrames m).card ≤ maxPages := by
  have bound := Finset.card_filter_le (Finset.range m.lastPhysPage) fun i => m.bitmap i = false
  rw [Finset.card_range] at bound
  exact bound.trans m.bounded

theorem Spends.count_ne (spends : Spends m t) (fewer : (freeFrames t).card < (freeFrames m).card) :
    t.freePageCount ≠ m.freePageCount := by
  obtain ⟨k, card, count⟩ := spends.spent
  have bound := freeFrames_card_le m
  have small : k < 2 ^ 64 := by
    unfold maxPages at bound
    omega
  have nonzero : UInt64.ofNat k ≠ 0 := by
    intro zero
    have value := congrArg UInt64.toNat zero
    rw [UInt64.toNat_ofNat_of_lt' small] at value
    change k = 0 at value
    omega
  rw [count]
  intro same
  apply nonzero
  grind

/-- `page_alloc` takes the first free frame. Frame 0 is taken like any other, but its address looks like a failure. -/
inductive Alloc (m : Machine) : UInt64 → Machine → Prop
  | none (empty : freeFrames m = ∅) : Alloc m 0 m
  | took {g : Nat} (small : g < m.lastPhysPage) (free : m.bitmap g = false) (first : ∀ i < g, m.bitmap i = true) :
      Alloc m (addrOf g) { m with bitmap := Function.update m.bitmap g true, freePageCount := m.freePageCount - 1 }

theorem pageAlloc_alloc (run : pageAlloc.run m = some (a, t)) : Alloc m a t := by
  unfold pageAlloc at run
  rw [run_bind_some (x := get) rfl] at run
  cases found : firstFrom (fun i => !m.bitmap i) 0 m.lastPhysPage with
  | none =>
      rw [found] at run
      cases run
      refine .none (Finset.filter_eq_empty_iff.mpr fun {i} small => ?_)
      have taken := firstFrom_none.mp found i (Nat.zero_le i) (by rw [Nat.zero_add]; exact Finset.mem_range.mp small)
      simpa using taken
  | some g =>
      rw [found] at run
      obtain ⟨-, upper, free, first⟩ := firstFrom_some found
      cases run
      exact .took (by omega) (by simpa using free) fun i small => by simpa using first i (Nat.zero_le i) small

theorem Alloc.card {g : Nat} (small : g < m.lastPhysPage) (free : m.bitmap g = false) (last : t.lastPhysPage = m.lastPhysPage)
    (bitmap : t.bitmap = Function.update m.bitmap g true) : (freeFrames t).card + 1 = (freeFrames m).card := by
  have erased : freeFrames t = (freeFrames m).erase g := by
    ext i
    unfold freeFrames
    simp only [Finset.mem_filter, Finset.mem_erase, last, bitmap, Function.update_apply]
    by_cases same : i = g
    · simp [same]
    · simp [same]
  have member : g ∈ freeFrames m := Finset.mem_filter.mpr ⟨Finset.mem_range.mpr small, free⟩
  rw [erased, Finset.card_erase_of_mem member]
  have := Finset.card_pos.mpr ⟨g, member⟩
  omega

instance : IsPreorder Machine Spends where
  refl := .refl
  trans _ _ _ := .trans

instance : Respects Spends where
  alloc := by
    intro m a t run
    cases pageAlloc_alloc run with
    | none => exact .refl m
    | took small free => exact ⟨rfl, 1, Alloc.card small free rfl rfl, rfl⟩
  write := fun phys i e m _ t run => by
    cases run
    exact ⟨rfl, (Spends.refl m).spent⟩

theorem Spends.card_le (spends : Spends m t) : (freeFrames t).card ≤ (freeFrames m).card := by
  obtain ⟨k, card, -⟩ := spends.spent
  omega

theorem pageAlloc_empty (run : pageAlloc.run m = some (a, t)) (empty : freeFrames m = ∅) : a = 0 ∧ t = m := by
  cases pageAlloc_alloc run with
  | none => exact ⟨rfl, rfl⟩
  | @took g small free =>
      have member : g ∈ freeFrames m := Finset.mem_filter.mpr ⟨Finset.mem_range.mpr small, free⟩
      exact (Finset.eq_empty_iff_forall_notMem.mp empty _ member).elim

def Takes {α : Type} (x : MmM α) : Prop := ∀ m a t, x.run m = some (a, t) → (freeFrames t).card ≤ (freeFrames m).card - 1

theorem Takes.bind {α β : Type} {x : MmM α} {f : α → MmM β} (first : Takes x) (rest : ∀ a, Moves Spends (f a)) :
    Takes (x >>= f) := by
  intro m b t run
  obtain ⟨a, u, hx, hf⟩ := run_bind_eq_some.mp run
  exact (rest a u b t hf).card_le.trans (first m a u hx)

theorem takes_pageAlloc : Takes pageAlloc := by
  intro m a t run
  cases pageAlloc_alloc run with
  | none empty => simp [empty]
  | @took g small free =>
      have := @Alloc.card m { m with bitmap := Function.update m.bitmap g true, freePageCount := m.freePageCount - 1 } g
        small free rfl rfl
      omega

theorem takes_vmmAllocPage : Takes vmmAllocPage := by
  refine .bind takes_pageAlloc fun phys => ?_
  split
  · exact .pure _
  · exact .bind (moves_zero Spends phys) fun _ => .pure _

theorem vmmAllocPage_empty (run : vmmAllocPage.run m = some (a, t)) (empty : freeFrames m = ∅) : a = 0 ∧ t = m := by
  unfold vmmAllocPage at run
  obtain ⟨phys, u, alloc, rest⟩ := run_bind_eq_some.mp run
  obtain ⟨rfl, rfl⟩ := pageAlloc_empty alloc empty
  cases rest
  exact ⟨rfl, rfl⟩

theorem takes_vmmClonePml4 (cr3 : UInt64) : Takes (vmmClonePml4 cr3) := by
  refine .bind takes_vmmAllocPage fun child => ?_
  split
  · exact .pure _
  · exact moves_clone_rest Spends cr3 child

theorem vmmClonePml4_empty (run : (vmmClonePml4 cr3).run m = some (a, t)) (empty : freeFrames m = ∅) : a = 0 ∧ t = m := by
  unfold vmmClonePml4 at run
  obtain ⟨child, u, alloc, rest⟩ := run_bind_eq_some.mp run
  obtain ⟨rfl, rfl⟩ := vmmAllocPage_empty alloc empty
  cases rest
  exact ⟨rfl, rfl⟩

theorem smallMachine_bounded : 16 ≤ maxPages := by decide

end SwiftBSD.Proof.Mm
