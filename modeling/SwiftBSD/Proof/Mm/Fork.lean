import SwiftBSD.Proof.Mm.Enough
import Mathlib.Tactic.SplitIfs

namespace SwiftBSD.Proof.Mm
open Lib SwiftBSD.Mm

variable {m t : Machine} {c f : Nat} {cr3 child virt : UInt64}

section CloneRun
theorem CloneMarked.upper (marked : CloneMarked m t (frameOf cr3)) (tables : LowTables m cr3) {q : List Nat} (path : Path 512 256 3 q) (short : q.length < 3)
    (at_ : tableAt next m.mem (frameOf cr3) q = some f) : t.mem f = m.mem f := by
  refine (marked.old f (tables.taken f ⟨q, path, at_⟩)).resolve_right fun changed => ?_
  obtain ⟨q', path', length, at'⟩ := changed.1
  rw [tables.tree.unique q' q f path' path at' at_] at length
  omega

variable (cloned : CloneRun m t (frameOf cr3) c)
include cloned

theorem CloneRun.high_same (tables : UserTables m cr3) (high : HighTable m.mem cr3 f) : t.mem f = m.mem f :=
  (cloned.old f (tables.highTaken f high)).resolve_right fun changed => tables.apart f high changed.1

theorem CloneRun.translate_high (tables : UserTables m cr3) (large : 256 ≤ index 3 virt) {r : Nat}
    (root : t.mem r (index 3 virt) = m.mem (frameOf cr3) (index 3 virt)) :
    translateFrom t.mem virt 3 r = translateFrom m.mem virt 3 (frameOf cr3) := by
  rw [@translateFrom_succ 2 t.mem, @translateFrom_succ 2 m.mem, root]
  split
  · rfl
  split
  · rfl
  · next present small =>
      have here : hwNext (m.mem (frameOf cr3) (index 3 virt)) = some (tableOf (m.mem (frameOf cr3) (index 3 virt))) := by
        unfold hwNext
        rw [if_neg present, if_neg small]
      have same := @translate_same 2 m.mem t.mem (tableOf (m.mem (frameOf cr3) (index 3 virt))) virt
        fun q f path at_ => cloned.high_same tables
          ⟨index 3 virt, q, large, index_lt 3 virt, path, by rw [tableAt_cons here, at_]⟩
      rw [same]

end CloneRun

theorem LowTables.tableOf_cr3 (tables : LowTables m cr3) : tableOf cr3 = frameOf cr3 := by
  have := tables.bound
  unfold tableOf frameOf
  omega

theorem tableOf_addrOf (bound : c ≤ maxPages) : tableOf (addrOf c) = c := by
  rw [tableOf_eq, frameOf_addrOf bound]
  unfold maxPages at bound
  omega

theorem CloneRun.translate_low (tables : LowTables m cr3) (cloned : CloneRun m t (frameOf cr3) c)
    (low : pml4Lookup virt < 256) : translate t.mem (addrOf c) virt = (translate m.mem cr3 virt).map cowPage := by
  unfold SwiftBSD.Mm.translate
  rw [tableOf_addrOf cloned.bound, tables.tableOf_cr3]
  exact translate_copy tables.plain cloned.copy low

/-- A copied address space translates every address as the parent's did, with the same rights, except that the 4 KB
pages of the user are read-only in both. The high half is shared, and the child's tables for the low half are frames
that were free, so that none of them is a table of the parent. -/
theorem clone_translations (tables : UserTables m cr3) (run : (vmmClonePml4 cr3).run m = some (child, t))
    (success : child ≠ 0) :
    (∀ virt, pml4Lookup virt < 256 →
      translate t.mem child virt = (translate m.mem cr3 virt).map cowPage ∧
      translate t.mem cr3 virt = (translate m.mem cr3 virt).map cowPage) ∧
    (∀ virt, 256 ≤ pml4Lookup virt →
      translate t.mem child virt = translate m.mem cr3 virt ∧ translate t.mem cr3 virt = translate m.mem cr3 virt) ∧
    (∀ i, 256 ≤ i → i < 512 →
      t.mem (frameOf child) i = m.mem (frameOf cr3) i ∧ t.mem (frameOf cr3) i = m.mem (frameOf cr3) i) ∧
    ∀ f, LowTable t.mem child f → m.bitmap f = false ∧ ¬LowTable m.mem cr3 f ∧ ¬HighTable m.mem cr3 f := by
  rcases vmmClonePml4_run tables.toLowTables run with ⟨failed, -⟩ | ⟨c, rfl, -, cloned⟩
  · exact (success failed).elim
  have cAt := frameOf_addrOf cloned.bound
  have parentRoot : t.mem (frameOf cr3) = m.mem (frameOf cr3) := cloned.upper tables.toLowTables .nil (by decide) rfl
  refine ⟨fun virt low => ⟨cloned.translate_low tables.toLowTables low, ?_⟩, ?_⟩
  · unfold SwiftBSD.Mm.translate
    rw [tables.tableOf_cr3]
    exact translate_marked tables.plain low (fun q f path short at_ => cloned.upper tables.toLowTables path short at_)
      cloned.pts
  unfold SwiftBSD.Mm.translate
  rw [tableOf_addrOf cloned.bound, tables.tableOf_cr3, cAt]
  refine ⟨ fun virt high => ⟨?_, ?_⟩, fun i lower upper => ⟨?_, ?_⟩, fun f low => ?_⟩
  · exact cloned.translate_high tables high (cloned.high _ high (index_lt 3 virt))
  · exact cloned.translate_high tables high (by rw [parentRoot])
  · exact cloned.high i lower upper
  · rw [parentRoot]
  · obtain ⟨q, path, at_⟩ := low
    rw [cAt] at at_
    have free := (cloned.fresh q f path at_).1
    refine ⟨free, fun low => ?_, fun high => ?_⟩
    · rw [tables.taken f low] at free
      cases free
    · rw [tables.highTaken f high] at free
      cases free

/-- The page at `0x1000000` is in frame 5; the tables are in frames 1 to 4. -/
def onePage : Machine where
  mem := fun f i =>
    if f = 1 ∧ i = 0 then 0x2007
    else if f = 2 ∧ i = 0 then 0x3007
    else if f = 3 ∧ i = 8 then 0x4007
    else if f = 4 ∧ i = 0 then 0x5007
    else 0
  bitmap := fun f => decide (f < 6)
  lastPhysPage := 16
  freePageCount := 10
  cr3 := 0x1000
  bounded := by decide

theorem onePage_next {f i g : Nat} (here : next (onePage.mem f i) = some g) :
    f = 1 ∧ i = 0 ∧ g = 2 ∨ f = 2 ∧ i = 0 ∧ g = 3 ∨ f = 3 ∧ i = 8 ∧ g = 4 ∨ f = 4 ∧ i = 0 ∧ g = 5 := by
  unfold onePage at here
  dsimp only at here
  split_ifs at here with one two three four
  · exact .inl ⟨one.1, one.2, (Option.some.inj here).symm⟩
  · exact .inr (.inl ⟨two.1, two.2, (Option.some.inj here).symm⟩)
  · exact .inr (.inr (.inl ⟨three.1, three.2, (Option.some.inj here).symm⟩))
  · exact .inr (.inr (.inr ⟨four.1, four.2, (Option.some.inj here).symm⟩))
  · cases here

theorem onePage_tableAt {q : List Nat} (path : Path 512 256 3 q) (at_ : tableAt next onePage.mem 1 q = some f) :
    q = [] ∧ f = 1 ∨ q = [0] ∧ f = 2 ∨ q = [0, 0] ∧ f = 3 ∨ q = [0, 0, 8] ∧ f = 4 := by
  match q with
  | [] => exact .inl ⟨rfl, (Option.some.inj at_).symm⟩
  | i :: q =>
      obtain ⟨g, here, at_⟩ := tableAt_cons_some at_
      obtain ⟨rfl, rfl⟩ : i = 0 ∧ g = 2 := by
        have := onePage_next here
        omega
      match q with
      | [] => exact .inr (.inl ⟨rfl, (Option.some.inj at_).symm⟩)
      | i :: q =>
          obtain ⟨g, here, at_⟩ := tableAt_cons_some at_
          obtain ⟨rfl, rfl⟩ : i = 0 ∧ g = 3 := by
            have := onePage_next here
            omega
          match q with
          | [] => exact .inr (.inr (.inl ⟨rfl, (Option.some.inj at_).symm⟩))
          | i :: q =>
              obtain ⟨g, here, at_⟩ := tableAt_cons_some at_
              obtain ⟨rfl, rfl⟩ : i = 8 ∧ g = 4 := by
                have := onePage_next here
                omega
              match q with
              | [] => exact .inr (.inr (.inr ⟨rfl, (Option.some.inj at_).symm⟩))
              | i :: q =>
                  have := path.length_le
                  simp only [List.length_cons] at this
                  omega

theorem lowTable_onePage (low : LowTable onePage.mem 0x1000 f) : f = 1 ∨ f = 2 ∨ f = 3 ∨ f = 4 := by
  obtain ⟨q, path, at_⟩ := low
  have := onePage_tableAt path at_
  omega

theorem lowTables_onePage : LowTables onePage 0x1000 where
  aligned := by decide
  bound := by decide
  tree := by
    refine ⟨fun q q' f path path' at_ at' => ?_⟩
    rcases onePage_tableAt path at_ with ⟨rfl, rfl⟩ | ⟨rfl, rfl⟩ | ⟨rfl, rfl⟩ | ⟨rfl, rfl⟩ <;>
      rcases onePage_tableAt path' at' with ⟨rfl, same⟩ | ⟨rfl, same⟩ | ⟨rfl, same⟩ | ⟨rfl, same⟩ <;>
      first | rfl | cases same
  plain := by
    intro q f i g path at_ here
    have plain (g : Nat) (small : g ≤ maxPages) (value : onePage.mem f i = tableEntry g) : Plain (onePage.mem f i) := by
      rw [value]
      exact plain_tableEntry small
    rcases onePage_next here with ⟨rfl, rfl, -⟩ | ⟨rfl, rfl, -⟩ | ⟨rfl, rfl, -⟩ | ⟨rfl, rfl, -⟩
    · exact plain 2 (by decide) rfl
    · exact plain 3 (by decide) rfl
    · exact plain 4 (by decide) rfl
    · exact plain 5 (by decide) rfl
  taken := by
    intro f low
    rcases lowTable_onePage low with rfl | rfl | rfl | rfl <;> rfl

theorem not_highTable_onePage : ¬HighTable onePage.mem 0x1000 f := by
  rintro ⟨i, q, lower, upper, path, at_⟩
  have absent : onePage.mem 1 i = 0 := by
    unfold onePage
    dsimp only
    rw [if_neg (by omega), if_neg (by omega), if_neg (by omega), if_neg (by omega)]
  change tableAt hwNext onePage.mem 1 (i :: q) = some f at at_
  rw [tableAt, absent] at at_
  cases at_

theorem userTables_onePage : UserTables onePage 0x1000 where
  toLowTables := lowTables_onePage
  highTaken := fun _ high => (not_highTable_onePage high).elim
  apart := fun _ high => (not_highTable_onePage high).elim

theorem onePage_forks : ∃ child t, (vmmClonePml4 0x1000).run onePage = some (child, t) ∧ child ≠ 0 := by
  apply vmmClonePml4_succeeds lowTables_onePage rfl
  have tables : tablesBelow onePage.mem 256 3 1 = 3 := by decide +kernel
  have frames : (freeFrames onePage).card = 10 := by decide
  change tablesBelow onePage.mem 256 3 1 < _
  rw [tables, frames]
  decide

theorem clone_translations_onePage : ∃ child t, (vmmClonePml4 0x1000).run onePage = some (child, t) ∧ child ≠ 0 ∧
    translate t.mem child 0x1000000 = some ⟨0x5000, 0x5005, 0, false, true, false⟩ ∧
    translate t.mem 0x1000 0x1000000 = some ⟨0x5000, 0x5005, 0, false, true, false⟩ := by
  obtain ⟨child, t, run, success⟩ := onePage_forks
  have low := (clone_translations userTables_onePage run success).1 0x1000000 (by decide)
  refine ⟨child, t, run, success, low.1.trans ?_, low.2.trans ?_⟩ <;> decide

end SwiftBSD.Proof.Mm
