import SwiftBSD.Proof.User.Table

namespace SwiftBSD.Proof.User
open SwiftBSD.User SwiftBSD.Mm Lib

def Hit (t : Vmas) (addr stop : UInt64) (k : Nat) : Prop :=
  Live t k ∧ addr < (t.entry k).stop ∧ (t.entry k).start < stop

def Straddles (t : Vmas) (addr : UInt64) (k : Nat) : Prop :=
  Live t k ∧ (t.entry k).start < addr ∧ addr < (t.entry k).stop

/-- The loop from slot `i` on, as far as the table is concerned. -/
inductive TableSweep (act : Vmas → Nat → Vmas) (addr stop : UInt64) : Nat → Vmas → Bool → Vmas → Prop
  | done {i : Nat} {t : Vmas} (past : vmaMax ≤ i) : TableSweep act addr stop i t true t
  | skip {i : Nat} {t u : Vmas} {b : Bool} (bound : i < vmaMax) (apart : ¬Hit t addr stop i)
      (rest : TableSweep act addr stop (i + 1) t b u) : TableSweep act addr stop i t b u
  | refused {i : Nat} {t : Vmas} (hit : Hit t addr stop i) (cut : cutOut t i addr stop = none) :
      TableSweep act addr stop i t false t
  | piece {i j : Nat} {t t' u : Vmas} {b : Bool} (hit : Hit t addr stop i) (cut : cutOut t i addr stop = some (j, t'))
      (rest : TableSweep act addr stop (j + 1) (act t' j) b u) : TableSweep act addr stop i t b u

theorem overlaps_iff {t : Vmas} {addr stop : UInt64} {k : Nat} (bound : k < vmaMax) :
    overlaps (t.entry k) addr stop = true ↔ Hit t addr stop k := by
  simp only [overlaps, Hit, Live, bound, true_and, Bool.and_eq_true, Bool.not_eq_true', Bool.or_eq_false_iff,
    decide_eq_false_iff_not, UInt64.not_le]

theorem forOverlapping_sweep {act : Nat → UserM Unit} {table : Vmas → Nat → Vmas} {addr stop : UInt64} {fuel i : Nat}
    {s s' : Space} {b : Bool} (acts : ∀ j s s', (act j).run s = some ((), s') → s'.vmas = table s.vmas j)
    (run : (forOverlapping act addr stop fuel i).run s = some (b, s')) :
    TableSweep table addr stop i s.vmas b s'.vmas := by
  induction fuel generalizing i s with
  | zero => cases run
  | succ fuel ih =>
      unfold forOverlapping at run
      by_cases past : vmaMax ≤ i
      · simp only [if_pos past] at run
        cases run
        exact .done past
      · simp only [if_neg past] at run
        obtain ⟨_, s₁, got, run⟩ := run_bind_eq_some.mp run
        cases got
        have bound : i < vmaMax := by omega
        split at run
        · next meets =>
            have hit := (overlaps_iff bound).mp meets
            cases cut : cutOut s.vmas i addr stop with
            | none =>
                simp only [cut] at run
                cases run
                exact .refused hit cut
            | some p =>
                obtain ⟨j, t⟩ := p
                simp only [cut] at run
                obtain ⟨_, s₁, set, run⟩ := run_bind_eq_some.mp run
                cases set
                obtain ⟨_, s₂, acted, run⟩ := run_bind_eq_some.mp run
                have rest := ih run
                rw [acts j _ s₂ acted] at rest
                exact .piece hit cut rest
        · next meets =>
            refine .skip bound (fun hit => meets ((overlaps_iff bound).mpr hit)) (ih run)

def trim (t : Vmas) (j : Nat) (stop : UInt64) : Vmas :=
  if stop < (t.entry j).stop then
    match vmaSplit t j stop with
    | some (_, t) => t
    | none => t
  else t

theorem cutOut_eq (t : Vmas) (i : Nat) (addr stop : UInt64) : cutOut t i addr stop =
    (if (t.entry i).start < addr then vmaSplit t i addr else some (i, t)).map fun (j, t) => (j, trim t j stop) := by
  unfold cutOut trim
  cases first : (if (t.entry i).start < addr then vmaSplit t i addr else some (i, t)) with
  | none => rfl
  | some p =>
      obtain ⟨j, t⟩ := p
      dsimp only [Option.map_some]
      split
      · split <;> simp_all
      · rfl

section Cut
variable {t t' : Vmas} {addr stop : UInt64} {i j : Nat}

theorem cutOut_none (hit : Hit t addr stop i) (cut : cutOut t i addr stop = none) :
    Straddles t addr i ∧ vmaAllocSlot t = none := by
  rw [cutOut_eq, Option.map_eq_none_iff] at cut
  split at cut
  · next before =>
      rw [vmaSplit_eq_none] at cut
      refine ⟨⟨hit.1, before, hit.2.1⟩, cut.resolve_left ?_⟩
      have := hit.2.1
      grind
  · cases cut

theorem cutOut_some (hit : Hit t addr stop i) (cut : cutOut t i addr stop = some (j, t')) :
    (addr ≤ (t.entry i).start ∧ j = i ∧ t' = trim t i stop) ∨
    (Straddles t addr i ∧ vmaAllocSlot t = some j ∧ t' = trim (splitAt t i j addr) j stop) := by
  rw [cutOut_eq, Option.map_eq_some_iff] at cut
  obtain ⟨⟨j', t₁⟩, first, same⟩ := cut
  simp only [Prod.mk.injEq] at same
  obtain ⟨rfl, rfl⟩ := same
  split at first
  · next before =>
      right
      obtain ⟨_, slot, rfl⟩ := vmaSplit_eq_some.mp first
      exact ⟨⟨hit.1, before, hit.2.1⟩, slot, rfl⟩
  · next before =>
      left
      simp only [Option.some.injEq, Prod.mk.injEq] at first
      obtain ⟨rfl, rfl⟩ := first
      exact ⟨by grind, rfl, rfl⟩

theorem trim_cases (t : Vmas) (j : Nat) (stop : UInt64) :
    ((stop ≤ (t.entry j).start ∨ (t.entry j).stop ≤ stop ∨ vmaAllocSlot t = none) ∧ trim t j stop = t) ∨
    ∃ q, ((t.entry j).start < stop ∧ stop < (t.entry j).stop) ∧ vmaAllocSlot t = some q ∧
      trim t j stop = splitAt t j q stop := by
  unfold trim
  split
  · next behind =>
      cases split : vmaSplit t j stop with
      | none =>
          rw [vmaSplit_eq_none] at split
          left
          refine ⟨?_, rfl⟩
          rcases split with (before | after) | full
          · exact .inl before
          · exact .inr (.inl after)
          · exact .inr (.inr full)
      | some p =>
          obtain ⟨q, t'⟩ := p
          right
          obtain ⟨inside, slot, rfl⟩ := vmaSplit_eq_some.mp split
          exact ⟨q, inside, slot, rfl⟩
  · next inside => exact .inl ⟨.inr (.inl (by grind)), rfl⟩

structure TrimRun (t t' : Vmas) (j : Nat) (stop : UInt64) : Prop where
  tidy : Tidy t'
  live : Live t' j
  piece : t'.entry j = t.entry j ∨ t'.entry j = leftPart (t.entry j) stop
  other : ∀ k, Live t' k → k ≠ j → (Live t k ∧ t'.entry k = t.entry k) ∨
    ((t.entry k).used = false ∧ (t'.entry k).start = stop ∧ (t'.entry k).stop = (t.entry j).stop ∧ stop < (t.entry j).stop)
  kept : ∀ k, Live t k → k ≠ j → Live t' k ∧ t'.entry k = t.entry k

theorem trim_run (tidy : Tidy t) (live : Live t j)
    (aligned : (t.entry j).start < stop → stop < (t.entry j).stop → Aligned stop) : TrimRun t (trim t j stop) j stop := by
  rcases trim_cases t j stop with ⟨_, equal⟩ | ⟨q, inside, slot, equal⟩
  · rw [equal]
    exact ⟨tidy, live, .inl rfl, fun k live' _ => .inl ⟨live', rfl⟩, fun k live' _ => ⟨live', rfl⟩⟩
  · rw [equal]
    have differ := slot_ne_live slot live
    refine ⟨tidy.splitAt live slot inside (aligned inside.1 inside.2), ?_, .inr splitAt_left, fun k live' other => ?_, fun k live' other => ?_⟩
    · exact (live_splitAt live slot).mpr (.inl live)
    · by_cases right : k = q
      · subst right
        refine .inr ⟨(vmaAllocSlot_some slot).2.1, ?_, ?_, inside.2⟩
        · rw [splitAt_right differ]
          rfl
        · rw [splitAt_right differ]
          rfl
      · exact .inl ⟨((live_splitAt live slot).mp live').resolve_right right, splitAt_other other right⟩
    · exact ⟨(live_splitAt live slot).mpr (.inl live'), splitAt_other other fun same => slot_ne_live slot live' same.symm⟩

end Cut

def release (t : Vmas) (i : Nat) : Vmas := vmaTryMerge (freeSlot t i) i

section Release
variable {t : Vmas} {i : Nat}

theorem release_cases (live : Live t i) :
    (∃ j, i = j + 1 ∧ Live t j ∧ Joins (t.entry j) (t.entry i) ∧ release t i = merged (freeSlot t i) j i) ∨
    ((∀ j, i = j + 1 → Live t j → ¬Joins (t.entry j) (t.entry i)) ∧
      ((Live t (i + 1) ∧ Joins (t.entry i) (t.entry (i + 1)) ∧ release t i = merged (freeSlot t i) i (i + 1)) ∨
        ((Live t (i + 1) → ¬Joins (t.entry i) (t.entry (i + 1))) ∧ release t i = freeSlot t i))) := by
  have freed : (freeSlot t i).entry i = { t.entry i with used := false } := by simp [freeSlot]
  have before : ∀ j, i = j + 1 → (freeSlot t i).entry j = t.entry j := fun j same => freeSlot_other (by omega)
  have after : (freeSlot t i).entry (i + 1) = t.entry (i + 1) := freeSlot_other (by omega)
  have liveAfter : Live (freeSlot t i) (i + 1) ↔ Live t (i + 1) := by
    rw [live_freeSlot]
    simp
  unfold release
  rcases vmaTryMerge_cases (freeSlot t i) i with ⟨j, same, used, joins, equal⟩ | ⟨left, ⟨next, joins, equal⟩ | ⟨right, equal⟩⟩
  · left
    rw [before j same] at used joins
    rw [freed] at joins
    exact ⟨j, same, ⟨by have := live.1; omega, used⟩, joins, equal⟩
  · right
    refine ⟨fun j same before' joins => ?_, .inl ⟨liveAfter.mp next, ?_, equal⟩⟩
    · apply left j same
      · rw [before j same]
        exact before'.2
      · rw [before j same, freed]
        exact joins
    · rw [freed, after] at joins
      exact joins
  · right
    refine ⟨fun j same before' joins => ?_, .inr ⟨fun next joins => ?_, equal⟩⟩
    · apply left j same
      · rw [before j same]
        exact before'.2
      · rw [before j same, freed]
        exact joins
    · apply right (liveAfter.mpr next)
      rw [freed, after]
      exact joins

theorem release_live {k : Nat} (live : Live t i) (left : ∀ j, i = j + 1 → Live t j → ¬Joins (t.entry j) (t.entry i))
    (stays : Live (release t i) k) : Live t k ∧ k ≠ i ∧ (release t i).entry k = t.entry k := by
  rcases release_cases live with ⟨j, same, before, joins, _⟩ | ⟨_, ⟨_, _, equal⟩ | ⟨_, equal⟩⟩
  · exact absurd joins (left j same before)
  · rw [equal] at stays ⊢
    obtain ⟨old, other⟩ := live_merged.mp stays
    obtain ⟨old, here⟩ := live_freeSlot.mp old
    refine ⟨old, here, ?_⟩
    rw [merged_other here other, freeSlot_other here]
  · rw [equal] at stays ⊢
    obtain ⟨old, here⟩ := live_freeSlot.mp stays
    exact ⟨old, here, freeSlot_other here⟩

theorem tidy_release (tidy : Tidy t) (live : Live t i)
    (left : ∀ j, i = j + 1 → Live t j → ¬Joins (t.entry j) (t.entry i)) : Tidy (release t i) := by
  refine tidy.sub (fun k stays => ?_) ?_
  · obtain ⟨old, _, equal⟩ := release_live live left stays
    exact ⟨old, equal⟩
  · have freed := tidy.freeSlot live
    rcases release_cases live with ⟨j, same, before, joins, _⟩ | ⟨_, ⟨next, _, equal⟩ | ⟨_, equal⟩⟩
    · exact absurd joins (left j same before)
    · rw [equal]
      have next' : Live (freeSlot t i) (i + 1) := live_freeSlot.mpr ⟨next, by omega⟩
      have := usedCount_clear next' (@merged_used (freeSlot t i) i (i + 1))
      have counted := freed.counted
      change (freeSlot t i).count - 1 = _
      omega
    · rw [equal]
      exact freed.counted

end Release

end SwiftBSD.Proof.User
