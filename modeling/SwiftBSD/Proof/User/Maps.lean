import SwiftBSD.Proof.User.Mappings

namespace SwiftBSD.Proof.User
open SwiftBSD.User SwiftBSD.Mm Lib

structure Mapping where
  prot : Int32
  flags : Int32
  fd : Int32
  offset : Option UInt64

def mapping (v : Vma) (a : UInt64) : Mapping where
  prot := v.prot
  flags := v.flags
  fd := v.fd
  offset := if 0 ≤ v.fd then some (v.foff + (a - v.start)) else none

def Maps (t : Vmas) (a : UInt64) (x : Mapping) : Prop :=
  ∃ k, Live t k ∧ Covers (t.entry k) a ∧ mapping (t.entry k) a = x

theorem Maps.covered {t : Vmas} {a : UInt64} {x : Mapping} (maps : Maps t a x) : Covered t a := by
  obtain ⟨k, live, covers, _⟩ := maps
  exact ⟨k, live, covers⟩

theorem Covered.maps {t : Vmas} {a : UInt64} (covered : Covered t a) : ∃ x, Maps t a x := by
  obtain ⟨k, live, covers⟩ := covered
  exact ⟨_, k, live, covers, rfl⟩

theorem mapping_rightPart (v : Vma) (p a : UInt64) : mapping (rightPart v p) a = mapping v a := by
  have : v.foff + (p - v.start) + (a - p) = v.foff + (a - v.start) := by grind
  simp only [mapping, rightPart, this]

section Maps
variable {t : Vmas} {i j r : Nat} {p addr stop a : UInt64} {x : Mapping}

theorem maps_splitAt (live : Live t i) (slot : vmaAllocSlot t = some r)
    (inside : (t.entry i).start < p ∧ p < (t.entry i).stop) : Maps (splitAt t i r p) a x ↔ Maps t a x := by
  have differ := slot_ne_live slot live
  have liveLeft : Live (splitAt t i r p) i := (live_splitAt live slot).mpr (.inl live)
  have liveRight : Live (splitAt t i r p) r := (live_splitAt live slot).mpr (.inr rfl)
  constructor
  · rintro ⟨k, live', covers, same⟩
    by_cases left : k = i
    · subst left
      rw [splitAt_left] at covers same
      refine ⟨k, live, ⟨covers.1, ?_⟩, same⟩
      have := covers.2
      simp only [leftPart] at this
      grind
    · by_cases right : k = r
      · subst right
        rw [splitAt_right differ] at covers same
        rw [mapping_rightPart] at same
        refine ⟨i, live, ⟨?_, covers.2⟩, same⟩
        have := covers.1
        simp only [rightPart] at this
        grind
      · rw [splitAt_other left right] at covers same
        exact ⟨k, ((live_splitAt live slot).mp live').resolve_right right, covers, same⟩
  · rintro ⟨k, live', covers, same⟩
    by_cases left : k = i
    · subst left
      by_cases before : a < p
      · refine ⟨k, liveLeft, ?_, ?_⟩
        · rw [splitAt_left]
          exact ⟨covers.1, before⟩
        · rw [splitAt_left]
          exact same
      · refine ⟨r, liveRight, ?_, ?_⟩
        · rw [splitAt_right differ]
          exact ⟨UInt64.not_lt.mp before, covers.2⟩
        · rw [splitAt_right differ, mapping_rightPart]
          exact same
    · have right : k ≠ r := fun same => slot_ne_live slot live' same.symm
      refine ⟨k, (live_splitAt live slot).mpr (.inl live'), ?_, ?_⟩
      · rwa [splitAt_other left right]
      · rwa [splitAt_other left right]

theorem maps_trim (live : Live t j) : Maps (trim t j stop) a x ↔ Maps t a x := by
  rcases trim_cases t j stop with ⟨_, equal⟩ | ⟨q, inside, slot, equal⟩
  · rw [equal]
  · rw [equal]
    exact maps_splitAt live slot inside

theorem live_trim {k : Nat} (live : Live t j) (live' : Live t k) : Live (trim t j stop) k := by
  rcases trim_cases t j stop with ⟨_, equal⟩ | ⟨q, inside, slot, equal⟩
  · rwa [equal]
  · rw [equal]
    exact (live_splitAt live slot).mpr (.inl live')

section Alone
variable {k : Nat} (live : Live t i) (left : ∀ j, i = j + 1 → Live t j → ¬Joins (t.entry j) (t.entry i))
include live left

theorem release_next (next : Live t (i + 1)) (joins : Joins (t.entry i) (t.entry (i + 1))) :
    ¬Live (release t i) (i + 1) := by
  rcases release_cases live with ⟨j, same, before, joins', _⟩ | ⟨_, ⟨_, _, equal⟩ | ⟨apart, _⟩⟩
  · exact absurd joins' (left j same before)
  · rw [equal]
    intro stays
    exact (live_merged.mp stays).2 rfl
  · exact absurd joins (apart next)

theorem release_keeps (old : Live t k) (here : k ≠ i) (next : k = i + 1 → ¬Joins (t.entry i) (t.entry (i + 1))) :
    Live (release t i) k ∧ (release t i).entry k = t.entry k := by
  rcases release_cases live with ⟨j, same, before, joins, _⟩ | ⟨_, ⟨_, joins, equal⟩ | ⟨_, equal⟩⟩
  · exact absurd joins (left j same before)
  · have other : k ≠ i + 1 := fun same => next same joins
    rw [equal]
    refine ⟨live_merged.mpr ⟨live_freeSlot.mpr ⟨old, here⟩, other⟩, ?_⟩
    rw [merged_other here other, freeSlot_other here]
  · rw [equal]
    exact ⟨live_freeSlot.mpr ⟨old, here⟩, freeSlot_other here⟩

theorem maps_release (maps : Maps (release t i) a x) : Maps t a x := by
  obtain ⟨k, live', covers, same⟩ := maps
  obtain ⟨old, _, equal⟩ := release_live live left live'
  rw [equal] at covers same
  exact ⟨k, old, covers, same⟩

theorem release_maps (maps : Maps t a x) (freed : ¬Covers (t.entry i) a)
    (next : Live t (i + 1) → Joins (t.entry i) (t.entry (i + 1)) → ¬Covers (t.entry (i + 1)) a) : Maps (release t i) a x := by
  obtain ⟨k, old, covers, same⟩ := maps
  have here : k ≠ i := by
    rintro rfl
    exact freed covers
  obtain ⟨stays, equal⟩ := release_keeps live left old here fun same joins => by
    subst same
    exact next old joins covers
  exact ⟨k, stays, by rwa [equal], by rwa [equal]⟩

end Alone

theorem trim_stays {k : Nat} (live : Live t j) (old : Live t k) (other : k ≠ j) :
    Live (trim t j stop) k ∧ (trim t j stop).entry k = t.entry k := by
  refine ⟨live_trim live old, ?_⟩
  rcases trim_cases t j stop with ⟨_, equal⟩ | ⟨q, inside, slot, equal⟩
  · rw [equal]
  · rw [equal]
    exact splitAt_other other fun same => slot_ne_live slot old same.symm

theorem trim_new {k : Nat} (live : Live t j) (stays : Live (trim t j stop) k) (other : k ≠ j) :
    (Live t k ∧ (trim t j stop).entry k = t.entry k) ∨
    ((trim t j stop).entry k = rightPart (t.entry j) stop ∧ (t.entry j).start < stop) := by
  rcases trim_cases t j stop with ⟨_, equal⟩ | ⟨q, inside, slot, equal⟩
  · rw [equal] at stays ⊢
    exact .inl ⟨stays, rfl⟩
  · rw [equal] at stays ⊢
    by_cases right : k = q
    · subst right
      exact .inr ⟨splitAt_right other, inside.1⟩
    · exact .inl ⟨((live_splitAt live slot).mp stays).resolve_right right, splitAt_other other right⟩

end Maps

end SwiftBSD.Proof.User
