import SwiftBSD.Proof.User.Maps

namespace SwiftBSD.Proof.User
open SwiftBSD.User SwiftBSD.Mm Lib

variable {t t' u : Vmas} {i j k r : Nat} {p a : UInt64} {x : Mapping}

/-- The same addresses are mapped in the same way, and `vma_count` is wrong by as much as before. -/
structure SameMap (t u : Vmas) : Prop where
  regions : Regions u
  maps : ∀ a x, Maps u a x ↔ Maps t a x
  count : u.count - usedCount u = t.count - usedCount t

theorem SameMap.refl (regions : Regions t) : SameMap t t := ⟨regions, fun _ _ => Iff.rfl, rfl⟩

theorem SameMap.splitAt (regions : Regions t) (live : Live t i) (slot : vmaAllocSlot t = some r)
    (inside : (t.entry i).start < p ∧ p < (t.entry i).stop) : SameMap t (splitAt t i r p) where
  regions := regions.splitAt live slot inside
  maps := fun a x => maps_splitAt live slot inside
  count := by
    rw [usedCount_splitAt live slot]
    change t.count + 1 - _ = _
    omega

theorem Joins.mapping {v w : Vma} (joins : Joins v w) (a : UInt64) : mapping w a = mapping v a := by
  obtain ⟨next, compat⟩ := joins
  unfold vmaCompat at compat
  simp only [decide_eq_true_eq] at compat
  obtain ⟨prot, flags, fd, foff⟩ := compat
  unfold User.mapping
  rw [prot, flags, ← fd]
  by_cases file : 0 ≤ v.fd
  · have offset : v.foff + (v.stop - v.start) + (a - w.start) = v.foff + (a - v.start) := by
      rw [next]
      grind
    rw [if_pos file, if_pos file, foff file, offset]
  · rw [if_neg file, if_neg file]

theorem maps_merged (regions : Regions t) (first : Live t i) (second : Live t j) (apart : i ≠ j)
    (joins : Joins (t.entry i) (t.entry j)) : Maps (merged t i j) a x ↔ Maps t a x := by
  have one := regions.nonempty i first
  have two := regions.nonempty j second
  have joined := joins.1
  have live : Live (merged t i j) i := live_merged.mpr ⟨first, apart⟩
  constructor
  · rintro ⟨k, live', covers, same⟩
    obtain ⟨old, -, ⟨rfl, equal⟩ | ⟨-, equal⟩⟩ := merged_cases apart live'
    · rw [equal] at covers same
      by_cases left : a < (t.entry k).stop
      · exact ⟨k, old, ⟨covers.1, left⟩, same⟩
      · refine ⟨j, second, ⟨?_, covers.2⟩, (joins.mapping a).trans same⟩
        rw [← joined]
        exact UInt64.not_lt.mp left
    · rw [equal] at covers same
      exact ⟨k, old, covers, same⟩
  · rintro ⟨k, old, covers, same⟩
    by_cases right : k = j
    · subst right
      refine ⟨i, live, ?_, ?_⟩
      · rw [merged_left apart]
        have := covers.1
        refine ⟨?_, covers.2⟩
        change (t.entry i).start ≤ a
        grind
      · rw [merged_left apart]
        exact (joins.mapping a).symm.trans same
    · have live' : Live (merged t i j) k := live_merged.mpr ⟨old, right⟩
      by_cases here : k = i
      · subst here
        refine ⟨k, live', ?_, ?_⟩
        · rw [merged_left apart]
          have := covers.2
          refine ⟨covers.1, ?_⟩
          change a < (t.entry j).stop
          grind
        · rw [merged_left apart]
          exact same
      · refine ⟨k, live', ?_, ?_⟩
        · rw [merged_other here right]
          exact covers
        · rw [merged_other here right]
          exact same

theorem SameMap.merged (regions : Regions t) (first : Live t i) (second : Live t j) (apart : i ≠ j)
    (joins : Joins (t.entry i) (t.entry j)) : SameMap t (merged t i j) where
  regions := regions.merged first second apart joins
  maps := fun a x => maps_merged regions first second apart joins
  count := by
    have := usedCount_clear second (@merged_used t i j)
    change t.count - 1 - _ = _
    omega

/-- The table after `vma_split`, which leaves it alone when it returns `-1`. -/
def afterSplit (t : Vmas) (i : Nat) (p : UInt64) : Vmas := ((vmaSplit t i p).map Prod.snd).getD t

theorem afterSplit_same (regions : Regions t) (live : Live t i) (p : UInt64) : SameMap t (afterSplit t i p) := by
  unfold afterSplit
  cases split : vmaSplit t i p with
  | none => exact .refl regions
  | some result =>
      obtain ⟨r, u⟩ := result
      obtain ⟨inside, slot, rfl⟩ := vmaSplit_eq_some.mp split
      exact .splitAt regions live slot inside

theorem vmaTryMerge_same (regions : Regions t) (live : Live t i) : SameMap t (vmaTryMerge t i) := by
  rcases vmaTryMerge_cases t i with ⟨j, rfl, used, joins, equal⟩ | ⟨-, ⟨next, joins, equal⟩ | ⟨-, equal⟩⟩
  · rw [equal]
    have before : Live t j := ⟨Nat.lt_of_succ_lt live.1, used⟩
    exact .merged regions before live (by omega) joins
  · rw [equal]
    exact .merged regions live next (by omega) joins
  · rw [equal]
    exact .refl regions

structure Restored (t u : Vmas) (i : Nat) : Prop where
  entry : ∀ k, k ≠ i + 1 → u.entry k = t.entry k
  free : ¬Live u (i + 1)
  count : u.count = t.count

theorem joins_parts (v : Vma) (p : UInt64) : Joins (leftPart v p) (rightPart v p) := by
  refine ⟨rfl, ?_⟩
  unfold vmaCompat leftPart rightPart
  simp

theorem merged_splitAt (live : Live t i) (slot : vmaAllocSlot t = some (i + 1)) :
    Restored t (merged (splitAt t i (i + 1) p) i (i + 1)) i := by
  have differ : i + 1 ≠ i := by omega
  refine ⟨fun k other => ?_, fun live' => (live_merged.mp live').2 rfl, ?_⟩
  · by_cases here : k = i
    · subst here
      rw [merged_left (by omega), splitAt_left, splitAt_right differ]
      rfl
    · rw [merged_other here other, splitAt_other here other]
  · change t.count + 1 - 1 = t.count
    omega

/-- Neither call changes what is mapped; and if the right part of a split entry is in the next slot, merging either part gives the entry back:
the right one always, the left one unless it continues the entry before it. -/
theorem pieces_same (regions : Regions t) (live : Live t i) : SameMap t (afterSplit t i p) ∧ SameMap t (vmaTryMerge t i) ∧
    ∀ u, vmaSplit t i p = some (i + 1, u) → Restored t (vmaTryMerge u (i + 1)) i ∧
      ((∀ j, i = j + 1 → (t.entry j).used = true → ¬Joins (t.entry j) (t.entry i)) → Restored t (vmaTryMerge u i) i) := by
  refine ⟨afterSplit_same regions live p, vmaTryMerge_same regions live, fun u split => ?_⟩
  obtain ⟨inside, slot, rfl⟩ := vmaSplit_eq_some.mp split
  have differ : i + 1 ≠ i := by omega
  have left : Live (splitAt t i (i + 1) p) i := (live_splitAt live slot).mpr (.inl live)
  have right : Live (splitAt t i (i + 1) p) (i + 1) := (live_splitAt live slot).mpr (.inr rfl)
  have joins : Joins ((splitAt t i (i + 1) p).entry i) ((splitAt t i (i + 1) p).entry (i + 1)) := by
    rw [splitAt_left, splitAt_right differ]
    exact joins_parts _ _
  constructor
  · rcases vmaTryMerge_cases (splitAt t i (i + 1) p) (i + 1) with ⟨j, same, -, -, equal⟩ | ⟨alone, -⟩
    · obtain rfl := Nat.succ.inj same
      rw [equal]
      exact merged_splitAt live slot
    · exact absurd joins (alone i rfl left.2)
  · intro alone
    rcases vmaTryMerge_cases (splitAt t i (i + 1) p) i with ⟨j, rfl, used, joins', -⟩ | ⟨-, ⟨-, -, equal⟩ | ⟨apart, -⟩⟩
    · -- the left part starts where the entry did
      rw [splitAt_other (by omega) (by omega)] at used joins'
      rw [splitAt_left] at joins'
      exact absurd joins' (alone j rfl used)
    · rw [equal]
      exact merged_splitAt live slot
    · exact absurd joins (apart right)

theorem regions_threePages : Regions threePages.vmas where
  nonempty := fun k live => by
    obtain rfl := live_threePages live
    decide
  disjoint := fun j k live live' differ => absurd ((live_threePages live).trans (live_threePages live').symm) differ

theorem pieces_same_threePages : SameMap threePages.vmas (afterSplit threePages.vmas 0 0x40001000) ∧
    SameMap threePages.vmas (vmaTryMerge threePages.vmas 0) ∧
    ∀ u, vmaSplit threePages.vmas 0 0x40001000 = some (1, u) → Restored threePages.vmas (vmaTryMerge u 1) 0 ∧
      ((∀ j, 0 = j + 1 → (threePages.vmas.entry j).used = true → ¬Joins (threePages.vmas.entry j) (threePages.vmas.entry 0)) →
        Restored threePages.vmas (vmaTryMerge u 0) 0) :=
  pieces_same regions_threePages ⟨by decide, rfl⟩

end SwiftBSD.Proof.User
