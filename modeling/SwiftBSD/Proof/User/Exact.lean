import SwiftBSD.Proof.User.Maps

namespace SwiftBSD.Proof.User
open SwiftBSD.User SwiftBSD.Mm Lib

def InRange (addr stop a : UInt64) : Prop := addr ≤ a ∧ a < stop

def First (t : Vmas) (addr stop : UInt64) (l : Nat) : Prop := ∀ h, h < l → ¬Hit t addr stop h

def Swallowed (t : Vmas) (addr stop : UInt64) : Nat → Prop
  | 0 => False
  | k+1 => Live t (k + 1) ∧
      (Hit t addr stop k ∧ addr ≤ (t.entry k).start ∧ ¬Swallowed t addr stop k ∧ Joins (t.entry k) (t.entry (k + 1)) ∨
        ∃ l, Hit t addr stop l ∧ Straddles t addr l ∧ First t addr stop l ∧ vmaAllocSlot t = some k ∧
          Joins (t.entry l) (t.entry (k + 1)))

/-- The entry in which the range starts can be cut: its right part goes to a slot `r` that is not the next one, no slot that
overlaps the range is jumped over, and nothing behind the range is lost. -/
structure CutsCleanly (t : Vmas) (addr stop : UInt64) (i r : Nat) : Prop where
  apart : r ≠ i + 1
  none_between : ∀ k, i < k → k < r → ¬Hit t addr stop k
  tail : stop < (t.entry i).stop → Live t (r + 1) ∧ ∃ q, r < q ∧ q < vmaMax ∧ (t.entry q).used = false
  next : (t.entry i).stop ≤ stop → Live t (r + 1) → Joins (t.entry i) (t.entry (r + 1)) → (t.entry (r + 1)).stop ≤ stop

/-- An entry that starts in the range can be freed: it does not continue the entry before it, and nothing behind the range is
lost. -/
structure FreesCleanly (t : Vmas) (addr stop : UInt64) (i : Nat) : Prop where
  before : ∀ j, i = j + 1 → Live t j → (t.entry i).start = addr → ¬Joins (t.entry j) (t.entry i)
  tail : stop < (t.entry i).stop → First t addr stop i → ∃ q, vmaAllocSlot t = some q ∧ q ≠ i + 1
  next : (t.entry i).stop ≤ stop → Live t (i + 1) → Joins (t.entry i) (t.entry (i + 1)) → (t.entry (i + 1)).stop ≤ stop

def CleanAt (t : Vmas) (addr stop : UInt64) (i : Nat) : Prop :=
  (Straddles t addr i → First t addr stop i → ∀ r, vmaAllocSlot t = some r → CutsCleanly t addr stop i r) ∧
  (addr ≤ (t.entry i).start → ¬Swallowed t addr stop i → FreesCleanly t addr stop i)

def Clean (t : Vmas) (addr stop : UInt64) : Prop := ∀ i, Hit t addr stop i → CleanAt t addr stop i

/-- The first split has no slot, and the call returns before it has changed anything. -/
def Refused (t : Vmas) (addr stop : UInt64) : Prop :=
  ∃ l, Hit t addr stop l ∧ Straddles t addr l ∧ First t addr stop l ∧ vmaAllocSlot t = none

structure Exact (t₀ : Vmas) (addr stop : UInt64) (d : Nat) (t : Vmas) : Prop extends Progress t₀ addr stop 0 d t where
  inside : ∀ a x, Maps t a x → Maps t₀ a x
  outside : ∀ a x, ¬InRange addr stop a → Maps t₀ a x → Maps t a x
  kept : ∀ k, Live t₀ k → ¬Hit t₀ addr stop k → t.entry k = t₀.entry k
  whole : ∀ k, d ≤ k → Hit t₀ addr stop k → t.entry k = t₀.entry k ∨ k = d ∧ Swallowed t₀ addr stop k
  reached : Hit t addr stop d → ¬Swallowed t₀ addr stop d
  passed : ∀ l, l < d → Straddles t₀ addr l → First t₀ addr stop l → ∀ r, vmaAllocSlot t₀ = some r → r < d

section Exact
variable {t₀ t : Vmas} {addr stop : UInt64} {d : Nat}

theorem exact_start (tidy : Tidy t₀) : Exact t₀ addr stop 0 t₀ where
  toProgress := progress_start tidy
  inside _ _ := id
  outside _ _ _ := id
  kept _ _ _ := rfl
  whole _ _ _ := .inl rfl
  reached _ := id
  passed l below := absurd below (Nat.not_lt_zero l)

theorem swallowed_start {k : Nat} (swallowed : Swallowed t₀ addr stop k) : addr < (t₀.entry k).start := by
  cases k with
  | zero => exact swallowed.elim
  | succ k =>
      rcases swallowed.2 with ⟨hit, _, _, joins⟩ | ⟨l, hit, _, _, _, joins⟩
      · rw [← joins.1]
        exact hit.2.1
      · rw [← joins.1]
        exact hit.2.1

theorem Exact.first (inv : Exact t₀ addr stop d t) (same : t = t₀) : First t₀ addr stop d := by
  intro h below
  rw [← same]
  exact inv.behind h (Nat.zero_le h) below

theorem Exact.same (inv : Exact t₀ addr stop d t) (first : First t₀ addr stop d) : t = t₀ := by
  rcases inv.touched with ⟨same, _⟩ | ⟨_, h, below, hit⟩
  · exact same
  · exact absurd hit (first h below)

theorem Exact.entry_after {k : Nat} (inv : Exact t₀ addr stop d t) (after : d < k) (live : Live t₀ k) :
    t.entry k = t₀.entry k ∧ Live t k := by
  have same : t.entry k = t₀.entry k := by
    by_cases hit : Hit t₀ addr stop k
    · exact (inv.whole k (by omega) hit).resolve_right fun ⟨here, _⟩ => by omega
    · exact inv.kept k live hit
  exact ⟨same, live.1, by rw [same]; exact live.2⟩

theorem straddles_hit {k : Nat} (range : addr < stop) (straddles : Straddles t addr k) : Hit t addr stop k :=
  ⟨straddles.1, straddles.2.2, UInt64.lt_trans straddles.2.1 range⟩

theorem Exact.skip (inv : Exact t₀ addr stop d t) (range : addr < stop) (apart : ¬Hit t addr stop d) :
    Exact t₀ addr stop (d + 1) t where
  toProgress := inv.toProgress.skip apart
  inside := inv.inside
  outside := inv.outside
  kept := inv.kept
  whole k after hit := .inl ((inv.whole k (by omega) hit).resolve_right fun ⟨here, _⟩ => by omega)
  reached hit swallowed := by
    rcases swallowed.2 with ⟨hit₀, _, unswallowed, _⟩ | ⟨l, hit₀, straddles, first, slot, joins⟩
    · rcases inv.whole d (Nat.le_refl d) hit₀ with same | ⟨_, swallowed'⟩
      · apply apart
        unfold Hit Live at hit₀ ⊢
        rwa [same]
      · exact unswallowed swallowed'
    · -- the entry `l` is still to come, and no entry before it overlaps the range
      have later : d ≤ l := by
        by_contra before
        have := inv.passed l (by omega) straddles first d slot
        omega
      have free := slot_ne_live slot hit₀.1
      have other : d + 1 ≠ l := by
        rintro rfl
        have := joins.1
        have := straddles.2
        grind
      exact first (d + 1) (by omega) (inv.hit₀ (by omega) hit)
  passed l below straddles first r slot := by
    rcases Nat.lt_succ_iff_lt_or_eq.mp below with before | rfl
    · have := inv.passed l before straddles first r slot
      omega
    · have hit₀ := straddles_hit range straddles
      rcases inv.whole l (Nat.le_refl l) hit₀ with same | ⟨_, swallowed⟩
      · refine absurd ?_ apart
        unfold Hit Live at hit₀ ⊢
        rwa [same]
      · have := swallowed_start swallowed
        have := straddles.2
        grind

theorem Exact.entry_next {k l : Nat} (inv : Exact t₀ addr stop d t) (tidy : Tidy t₀) (after : d ≤ k) (live : Live t k)
    (hit : Hit t₀ addr stop l) (starts : (t.entry k).start = (t₀.entry l).stop) (ends : (t₀.entry l).stop ≤ stop) :
    t.entry k = t₀.entry k ∧ Live t₀ k := by
  have nonempty := inv.tidy.nonempty k live
  have upper := hit.2.1
  have same : t.entry k = t₀.entry k := by
    by_cases below : (t.entry k).start < stop
    · exact inv.ahead k after ⟨live, by grind, below⟩
    · -- it covers the first address behind the range, which an entry outside the range covers in the first table
      have start : (t.entry k).start = stop := by grind
      obtain ⟨x, maps⟩ := Covered.maps ⟨k, live, ⟨by grind, by grind⟩⟩ (a := stop)
      obtain ⟨k₀, live₀, covers, _⟩ := inv.inside stop x maps
      have apart : ¬Hit t₀ addr stop k₀ := by
        intro hit'
        have differ : k₀ ≠ l := by
          rintro rfl
          have := covers.2
          grind
        have := tidy.disjoint k₀ l live₀ hit.1 differ
        have := covers.2
        have := hit'.2.2
        have := hit.2.2
        grind
      have same := inv.kept k₀ live₀ apart
      have : k₀ = k := by
        apply inv.tidy.unique (a := stop) ⟨live₀.1, by rw [same]; exact live₀.2⟩ live
        · rw [same]
          exact covers
        · exact ⟨by grind, by grind⟩
      rw [← this]
      exact same
  exact ⟨same, live.1, by rw [← same]; exact live.2⟩

theorem Exact.tail_slot (inv : Exact t₀ addr stop d t) (hit : Hit t addr stop d) (clean : FreesCleanly t₀ addr stop d)
    (behind : stop < (t₀.entry d).stop) : ∃ q, vmaAllocSlot t = some q ∧ q ≠ d + 1 := by
  rcases inv.touched with ⟨same, _⟩ | ⟨⟨f, below, _, free⟩, _⟩
  · rw [same]
    exact clean.tail behind (inv.first same)
  · obtain ⟨q, slot, before⟩ := vmaAllocSlot_below below (Nat.le_of_lt hit.1.1) free
    exact ⟨q, slot, by omega⟩

theorem Exact.trim_clean (inv : Exact t₀ addr stop d t) (hit : Hit t addr stop d) (clean : FreesCleanly t₀ addr stop d) :
    ((t₀.entry d).stop ≤ stop ∧ trim t d stop = t) ∨
    (stop < (t₀.entry d).stop ∧ (trim t d stop).entry d = leftPart (t.entry d) stop ∧
      (Live (trim t d stop) (d + 1) → ((trim t d stop).entry (d + 1)).start ≠ stop)) := by
  have here := inv.ahead d (Nat.le_refl d) hit
  rcases trim_cases t d stop with ⟨why, equal⟩ | ⟨q, inside, slot, equal⟩
  · left
    refine ⟨?_, equal⟩
    by_contra behind
    obtain ⟨q, slot, _⟩ := inv.tail_slot hit clean (UInt64.not_le.mp behind)
    have := hit.2.2
    rw [here] at why this
    rcases why with start | ends | full
    · grind
    · exact behind ends
    · rw [slot] at full
      cases full
  · right
    have behind : stop < (t₀.entry d).stop := by
      rw [← here]
      exact inside.2
    refine ⟨behind, by rw [equal, splitAt_left], fun live start => ?_⟩
    obtain ⟨q', slot', apart⟩ := inv.tail_slot hit clean behind
    rw [slot] at slot'
    cases slot'
    rw [equal] at live start
    have old := ((live_splitAt hit.1 slot).mp live).resolve_right (by omega)
    rw [splitAt_other (by omega) (by omega)] at start
    have nonempty := inv.tidy.nonempty (d + 1) old
    have : d + 1 = d := by
      apply inv.tidy.unique (a := stop) old hit.1
      · exact ⟨by grind, by grind⟩
      · exact ⟨UInt64.le_of_lt inside.1, inside.2⟩
    omega

theorem Exact.free_next (inv : Exact t₀ addr stop d t) (tidy : Tidy t₀) (hit : Hit t addr stop d)
    (clean : FreesCleanly t₀ addr stop d) (next : Live (trim t d stop) (d + 1))
    (joins : Joins ((trim t d stop).entry d) ((trim t d stop).entry (d + 1))) :
    trim t d stop = t ∧ t.entry (d + 1) = t₀.entry (d + 1) ∧ Live t₀ (d + 1) ∧
      Joins (t₀.entry d) (t₀.entry (d + 1)) ∧ (t₀.entry (d + 1)).stop ≤ stop := by
  have here := inv.ahead d (Nat.le_refl d) hit
  rcases inv.trim_clean hit clean with ⟨ends, equal⟩ | ⟨_, piece, apart⟩
  · rw [equal] at next joins
    have hit₀ := inv.hit₀ (Nat.le_refl d) hit
    obtain ⟨same, live₀⟩ := inv.entry_next tidy (by omega) next hit₀ (by rw [← here]; exact joins.1.symm) ends
    rw [here, same] at joins
    exact ⟨equal, same, live₀, joins, clean.next ends live₀ joins⟩
  · have start := joins.1
    rw [piece] at start
    exact absurd start.symm (apart next)

theorem Exact.free (inv : Exact t₀ addr stop d t) (tidy : Tidy t₀) (cuts : CutsAligned t₀ addr stop)
    (hit : Hit t addr stop d) (inside : addr ≤ (t.entry d).start) (clean : FreesCleanly t₀ addr stop d) :
    Exact t₀ addr stop (d + 1) (release (trim t d stop) d) := by
  have here := inv.ahead d (Nat.le_refl d) hit
  have hit₀ := inv.hit₀ (Nat.le_refl d) hit
  have live : Live (trim t d stop) d := live_trim hit.1 hit.1
  have left : ∀ j, d = j + 1 → Live (trim t d stop) j → ¬Joins ((trim t d stop).entry j) ((trim t d stop).entry d) := by
    intro j next before joins
    obtain ⟨live₀, start, joins₀⟩ := inv.left_whole tidy cuts hit inside next before joins
    exact clean.before j next live₀ start joins₀
  have piece : ∀ a, Covers ((trim t d stop).entry d) a → InRange addr stop a := by
    intro a covers
    rcases inv.trim_clean hit clean with ⟨ends, equal⟩ | ⟨_, same, _⟩
    · rw [equal] at covers
      rw [← here] at ends
      have := covers.1
      have := covers.2
      exact ⟨by grind, by grind⟩
    · rw [same] at covers
      exact ⟨UInt64.le_trans inside covers.1, covers.2⟩
  have next : Live (trim t d stop) (d + 1) → Joins ((trim t d stop).entry d) ((trim t d stop).entry (d + 1)) →
      ∀ a, Covers ((trim t d stop).entry (d + 1)) a → InRange addr stop a := by
    intro live' joins a covers
    obtain ⟨equal, same, _, joins₀, ends⟩ := inv.free_next tidy hit clean live' joins
    rw [equal, same] at covers
    have := joins₀.1
    have := hit₀.2.1
    have := covers.1
    have := covers.2
    exact ⟨by grind, by grind⟩
  refine { toProgress := inv.toProgress.whole cuts hit left, inside := ?_, outside := ?_, kept := ?_, whole := ?_, reached := ?_, passed := ?_ }
  · intro a x maps
    exact inv.inside a x ((maps_trim hit.1).mp (maps_release live left maps))
  · intro a x out maps
    have maps' : Maps (trim t d stop) a x := (maps_trim hit.1).mpr (inv.outside a x out maps)
    refine release_maps live left maps' (fun covers => out (piece a covers)) fun live' joins covers => ?_
    exact out (next live' joins a covers)
  · intro k live₀ apart
    have same := inv.kept k live₀ apart
    have live' : Live t k := ⟨live₀.1, by rw [same]; exact live₀.2⟩
    have other : k ≠ d := by
      rintro rfl
      exact apart hit₀
    obtain ⟨stays, same'⟩ := @trim_stays t d stop k hit.1 live' other
    obtain ⟨_, equal⟩ := release_keeps live left stays other fun same'' joins => by
      subst same''
      have nonempty := tidy.nonempty (d + 1) live₀
      obtain ⟨lower, upper⟩ := next stays joins (t₀.entry (d + 1)).start (by rw [same', same]; exact ⟨UInt64.le_refl _, nonempty⟩)
      exact apart ⟨live₀, UInt64.lt_of_le_of_lt lower nonempty, upper⟩
    rw [equal, same', same]
  · intro k after hit'
    obtain ⟨same, live'⟩ := inv.entry_after (by omega) hit'.1
    obtain ⟨stays, same'⟩ := @trim_stays t d stop k hit.1 live' (by omega)
    by_cases merged : k = d + 1 ∧ Joins ((trim t d stop).entry d) ((trim t d stop).entry (d + 1))
    · obtain ⟨rfl, joins⟩ := merged
      obtain ⟨_, _, live₀, joins₀, _⟩ := inv.free_next tidy hit clean stays joins
      refine .inr ⟨rfl, live₀, .inl ⟨hit₀, by rwa [← here], inv.reached hit, joins₀⟩⟩
    · left
      obtain ⟨_, equal⟩ := release_keeps live left stays (by omega) fun here' joins => merged ⟨here', joins⟩
      rw [equal, same', same]
  · rintro ⟨live', lower, upper⟩ ⟨live₀, ⟨_, _, _, joins⟩ | ⟨l, _, _, _, slot, _⟩⟩
    · obtain ⟨same, old⟩ := inv.entry_after (Nat.lt_succ_self d) live₀
      obtain ⟨stays, same'⟩ := @trim_stays t d stop (d + 1) hit.1 old (by omega)
      obtain ⟨_, _, equal⟩ := release_live live left live'
      rw [equal, same', same, ← joins.1] at upper
      rcases inv.trim_clean hit clean with ⟨_, whole⟩ | ⟨behind, _⟩
      · apply release_next live left stays _ live'
        rw [whole, here, same]
        exact joins
      · grind
    · exact slot_ne_live slot hit₀.1 rfl
  · intro l below straddles first r slot
    rcases Nat.lt_succ_iff_lt_or_eq.mp below with before | rfl
    · have := inv.passed l before straddles first r slot
      omega
    · have := straddles.2.1
      rw [here] at inside
      grind

end Exact

end SwiftBSD.Proof.User
