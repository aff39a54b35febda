import SwiftBSD.Proof.User.Sweep

namespace SwiftBSD.Proof.User
open SwiftBSD.User SwiftBSD.Mm Lib

structure Progress (t₀ : Vmas) (addr stop : UInt64) (lo d : Nat) (t : Vmas) : Prop where
  tidy : Tidy t
  behind : ∀ k, lo ≤ k → k < d → ¬Hit t addr stop k
  ahead : ∀ k, d ≤ k → Hit t addr stop k → t.entry k = t₀.entry k
  origin : ∀ k, Live t k → t.entry k = t₀.entry k ∨ stop ≤ (t.entry k).start ∨ Straddles t₀ addr k
  touched : t = t₀ ∧ lo = 0 ∨
    (∃ f, f < d ∧ f < vmaMax ∧ (t.entry f).used = false) ∧ ∃ h, h < d ∧ Hit t₀ addr stop h
  low : lo = 0 ∨ lo < d
  jumped : 0 < lo → ∃ l, l < d ∧ Straddles t₀ addr l

def CutsAligned (t : Vmas) (addr stop : UInt64) : Prop :=
  ∀ p, p = addr ∨ p = stop → ∀ k, Live t k → (t.entry k).start < p → p < (t.entry k).stop → Aligned p

section Progress
variable {t₀ t : Vmas} {addr stop : UInt64} {lo d : Nat}

theorem progress_start (tidy : Tidy t₀) : Progress t₀ addr stop 0 0 t₀ where
  tidy := tidy
  behind k _ below := absurd below (Nat.not_lt_zero k)
  ahead _ _ _ := rfl
  origin _ _ := .inl rfl
  touched := .inl ⟨rfl, rfl⟩
  low := .inl rfl
  jumped positive := absurd positive (Nat.lt_irrefl 0)

theorem Progress.hit₀ {k : Nat} (inv : Progress t₀ addr stop lo d t) (after : d ≤ k) (hit : Hit t addr stop k) :
    Hit t₀ addr stop k := by
  have same := inv.ahead k after hit
  unfold Hit Live at hit ⊢
  rwa [same] at hit

theorem Progress.straddles₀ {k : Nat} (inv : Progress t₀ addr stop lo d t) (after : d ≤ k) (hit : Hit t addr stop k)
    (straddles : Straddles t addr k) : Straddles t₀ addr k := by
  have same := inv.ahead k after hit
  unfold Straddles Live at straddles ⊢
  rwa [same] at straddles

theorem Progress.skip (inv : Progress t₀ addr stop lo d t) (apart : ¬Hit t addr stop d) :
    Progress t₀ addr stop lo (d + 1) t where
  tidy := inv.tidy
  behind k lower upper := by
    rcases Nat.lt_succ_iff_lt_or_eq.mp upper with before | rfl
    · exact inv.behind k lower before
    · exact apart
  ahead k after hit := inv.ahead k (by omega) hit
  origin := inv.origin
  touched := by
    rcases inv.touched with same | ⟨⟨f, below, free⟩, h, below', hit⟩
    · exact .inl same
    · exact .inr ⟨⟨f, by omega, free⟩, h, by omega, hit⟩
  low := by
    rcases inv.low with zero | below
    · exact .inl zero
    · exact .inr (by omega)
  jumped positive := by
    obtain ⟨l, below, straddles⟩ := inv.jumped positive
    exact ⟨l, by omega, straddles⟩

theorem Progress.trim_aligned (inv : Progress t₀ addr stop lo d t) (cuts : CutsAligned t₀ addr stop)
    (hit : Hit t addr stop d) (lower : (t.entry d).start < stop) (upper : stop < (t.entry d).stop) : Aligned stop := by
  have live := (inv.hit₀ (Nat.le_refl d) hit).1
  have same := inv.ahead d (Nat.le_refl d) hit
  rw [same] at lower upper
  exact cuts stop (.inr rfl) d live lower upper

theorem Progress.left_whole {j : Nat} (inv : Progress t₀ addr stop lo d t) (tidy : Tidy t₀) (cuts : CutsAligned t₀ addr stop)
    (hit : Hit t addr stop d) (inside : addr ≤ (t.entry d).start) (next : d = j + 1) (live : Live (trim t d stop) j)
    (joins : Joins ((trim t d stop).entry j) ((trim t d stop).entry d)) :
    Live t₀ j ∧ (t₀.entry d).start = addr ∧ Joins (t₀.entry j) (t₀.entry d) := by
  have cut := trim_run inv.tidy hit.1 (inv.trim_aligned cuts hit)
  have here := inv.ahead d (Nat.le_refl d) hit
  have hit₀ := inv.hit₀ (Nat.le_refl d) hit
  have joins' : Joins ((trim t d stop).entry j) (t.entry d) := by
    rcases cut.piece with same | same
    · rwa [same] at joins
    · rw [same] at joins
      exact joins
  have joined := joins'.1
  have nonempty := cut.tidy.nonempty j live
  have upper := hit.2.2
  rcases cut.other j live (by omega) with ⟨old, same⟩ | ⟨_, start, _⟩
  · rw [same] at joins' joined nonempty
    have apart := inv.behind j (by rcases inv.low with zero | below <;> omega) (by omega)
    have ends : (t.entry j).stop = addr := by
      unfold Hit at apart
      grind
    have start : (t₀.entry d).start = addr := by
      rw [← here, ← joined, ends]
    rcases inv.origin j old with same' | after | straddles
    · refine ⟨⟨old.1, by rw [← same']; exact old.2⟩, start, ?_⟩
      rw [← here, ← same']
      exact joins'
    · grind
    · -- then two entries of the first table would cover the start of the range
      have : j = d := by
        refine tidy.unique straddles.1 hit₀.1 ⟨UInt64.le_of_lt straddles.2.1, straddles.2.2⟩ ⟨?_, hit₀.2.1⟩
        rw [start]
        exact UInt64.le_refl _
      omega
  · grind

theorem Progress.whole (inv : Progress t₀ addr stop lo d t) (cuts : CutsAligned t₀ addr stop) (hit : Hit t addr stop d)
    (left : ∀ j, d = j + 1 → Live (trim t d stop) j → ¬Joins ((trim t d stop).entry j) ((trim t d stop).entry d)) :
    Progress t₀ addr stop lo (d + 1) (release (trim t d stop) d) := by
  have cut := trim_run inv.tidy hit.1 (inv.trim_aligned cuts hit)
  -- every entry that stays is an old one, or the part behind the range
  have stays : ∀ k, Live (release (trim t d stop) d) k → k ≠ d ∧
      (Live t k ∧ (release (trim t d stop) d).entry k = t.entry k ∨
        ((release (trim t d stop) d).entry k).start = stop) := by
    intro k live
    obtain ⟨live', other, same⟩ := release_live cut.live left live
    refine ⟨other, ?_⟩
    rw [same]
    rcases cut.other k live' other with old | ⟨_, start, _⟩
    · exact .inl old
    · exact .inr start
  have hits : ∀ k, Hit (release (trim t d stop) d) addr stop k → k ≠ d ∧ Hit t addr stop k ∧
      (release (trim t d stop) d).entry k = t.entry k := by
    rintro k ⟨live, lower, upper⟩
    obtain ⟨other, ⟨old, same⟩ | start⟩ := stays k live
    · rw [same] at lower upper
      exact ⟨other, ⟨old, lower, upper⟩, same⟩
    · rw [start] at upper
      exact absurd upper (UInt64.lt_irrefl stop)
  refine ⟨tidy_release cut.tidy cut.live left, fun k lower upper hit' => ?_, fun k after hit' => ?_, fun k live => ?_, ?_, ?_, ?_⟩
  · obtain ⟨other, old, _⟩ := hits k hit'
    exact inv.behind k lower (by omega) old
  · obtain ⟨_, old, same⟩ := hits k hit'
    rw [same]
    exact inv.ahead k (by omega) old
  · obtain ⟨_, ⟨old, same⟩ | start⟩ := stays k live
    · rw [same]
      exact inv.origin k old
    · right
      left
      rw [start]
      exact UInt64.le_refl _
  · right
    refine ⟨⟨d, by omega, hit.1.1, ?_⟩, d, by omega, inv.hit₀ (Nat.le_refl d) hit⟩
    by_contra used
    have := (stays d ⟨hit.1.1, by simpa using used⟩).1
    exact this rfl
  · rcases inv.low with zero | below
    · exact .inl zero
    · exact .inr (by omega)
  · intro positive
    obtain ⟨l, below, straddles⟩ := inv.jumped positive
    exact ⟨l, by omega, straddles⟩

/-- The table after both splits of an entry in which the range starts. -/
def straddleCut (t : Vmas) (d r : Nat) (addr stop : UInt64) : Vmas := trim (splitAt t d r addr) r stop

variable {r : Nat}

theorem Progress.straddle_trim (inv : Progress t₀ addr stop lo d t) (cuts : CutsAligned t₀ addr stop)
    (hit : Hit t addr stop d) (straddles : Straddles t addr d) (slot : vmaAllocSlot t = some r) :
    TrimRun (splitAt t d r addr) (straddleCut t d r addr stop) r stop := by
  have differ := slot_ne_live slot hit.1
  have same := inv.ahead d (Nat.le_refl d) hit
  have live := (inv.hit₀ (Nat.le_refl d) hit).1
  have inside : (t₀.entry d).start < addr ∧ addr < (t₀.entry d).stop := by
    rw [← same]
    exact straddles.2
  have aligned := cuts addr (.inl rfl) d live inside.1 inside.2
  have tidy := inv.tidy.splitAt hit.1 slot straddles.2 aligned
  apply trim_run tidy ((live_splitAt hit.1 slot).mpr (.inr rfl))
  intro lower upper
  rw [splitAt_right differ] at lower upper
  have lower' : addr < stop := lower
  have upper' : stop < (t.entry d).stop := upper
  rw [same] at upper'
  exact cuts stop (.inr rfl) d live (by grind) upper'

theorem straddle_piece (slot : vmaAllocSlot t = some r) (live : Live t d)
    (cut : TrimRun (splitAt t d r addr) (straddleCut t d r addr stop) r stop) :
    ((straddleCut t d r addr stop).entry r).start = addr := by
  have right := @splitAt_right t d r addr (slot_ne_live slot live)
  rcases cut.piece with same | same
  · rw [same, right]
    rfl
  · rw [same, right]
    rfl

theorem Progress.left_straddle {j : Nat} (inv : Progress t₀ addr stop lo d t) (cuts : CutsAligned t₀ addr stop)
    (hit : Hit t addr stop d) (straddles : Straddles t addr d) (slot : vmaAllocSlot t = some r) (next : r = j + 1)
    (live : Live (straddleCut t d r addr stop) j)
    (joins : Joins ((straddleCut t d r addr stop).entry j) ((straddleCut t d r addr stop).entry r)) : j = d := by
  by_contra other
  have cut := inv.straddle_trim cuts hit straddles slot
  have joined := joins.1
  rw [straddle_piece slot hit.1 cut] at joined
  have right := @splitAt_right t d r addr (slot_ne_live slot hit.1)
  rcases cut.other j live (by omega) with ⟨old, same⟩ | ⟨_, _, ends, _⟩
  · have old' : Live t j := ((live_splitAt hit.1 slot).mp old).resolve_right (by omega)
    rw [same, splitAt_other other (by omega)] at joined
    have apart := inv.tidy.disjoint j d old' hit.1 other
    have nonempty := inv.tidy.nonempty j old'
    have := straddles.2
    grind
  · rw [joined, right] at ends
    have : addr = (t.entry d).stop := ends
    have := straddles.2
    grind

theorem Progress.straddle_stays (inv : Progress t₀ addr stop lo d t) (cuts : CutsAligned t₀ addr stop)
    (hit : Hit t addr stop d) (straddles : Straddles t addr d) (slot : vmaAllocSlot t = some r)
    (left : ∀ j, r = j + 1 → Live (straddleCut t d r addr stop) j →
      ¬Joins ((straddleCut t d r addr stop).entry j) ((straddleCut t d r addr stop).entry r))
    {k : Nat} (stays : Live (release (straddleCut t d r addr stop) r) k) : k ≠ r ∧
    (k = d ∧ (release (straddleCut t d r addr stop) r).entry k = leftPart (t.entry d) addr ∨
      k ≠ d ∧ Live t k ∧ (release (straddleCut t d r addr stop) r).entry k = t.entry k ∨
      k ≠ d ∧ ((release (straddleCut t d r addr stop) r).entry k).start = stop) := by
  have cut := inv.straddle_trim cuts hit straddles slot
  obtain ⟨live, other, same⟩ := release_live cut.live left stays
  refine ⟨other, ?_⟩
  rw [same]
  have split := @live_splitAt t d r addr k hit.1 slot
  by_cases here : k = d
  · subst here
    left
    refine ⟨rfl, ?_⟩
    rw [(cut.kept k (split.mpr (.inl hit.1)) other).2, splitAt_left]
  · right
    rcases cut.other k live other with ⟨old, same'⟩ | ⟨_, start, _⟩
    · left
      refine ⟨here, (split.mp old).resolve_right other, ?_⟩
      rw [same', splitAt_other here other]
    · exact .inr ⟨here, start⟩

theorem Progress.straddle {lo' d' : Nat} (inv : Progress t₀ addr stop lo d t) (cuts : CutsAligned t₀ addr stop)
    (hit : Hit t addr stop d) (straddles : Straddles t addr d) (slot : vmaAllocSlot t = some r)
    (left : ∀ j, r = j + 1 → Live (straddleCut t d r addr stop) j →
      ¬Joins ((straddleCut t d r addr stop).entry j) ((straddleCut t d r addr stop).entry r))
    (behind : ∀ k, lo' ≤ k → k < d' → k ≠ d → k ≠ r → ¬Hit t addr stop k) (entry : d < d') (piece : r < d')
    (low : lo' = 0 ∨ lo' < d') : Progress t₀ addr stop lo' d' (release (straddleCut t d r addr stop) r) := by
  have cut := inv.straddle_trim cuts hit straddles slot
  have stays := fun k (live : Live (release (straddleCut t d r addr stop) r) k) =>
    inv.straddle_stays cuts hit straddles slot left live
  have hits : ∀ k, Hit (release (straddleCut t d r addr stop) r) addr stop k → k ≠ r ∧ k ≠ d ∧ Hit t addr stop k ∧
      (release (straddleCut t d r addr stop) r).entry k = t.entry k := by
    rintro k ⟨live, lower, upper⟩
    obtain ⟨other, ⟨_, same⟩ | ⟨here, old, same⟩ | ⟨_, start⟩⟩ := stays k live
    · rw [same] at lower
      exact absurd lower (UInt64.lt_irrefl addr)
    · rw [same] at lower upper
      exact ⟨other, here, ⟨old, lower, upper⟩, same⟩
    · rw [start] at upper
      exact absurd upper (UInt64.lt_irrefl stop)
  refine ⟨tidy_release cut.tidy cut.live left, fun k lower upper hit' => ?_, fun k after hit' => ?_, fun k live => ?_, ?_, low, ?_⟩
  · obtain ⟨other, here, old, _⟩ := hits k hit'
    exact behind k lower upper here other old
  · obtain ⟨_, _, old, same⟩ := hits k hit'
    rw [same]
    exact inv.ahead k (by omega) old
  · obtain ⟨_, ⟨here, _⟩ | ⟨_, old, same⟩ | ⟨_, start⟩⟩ := stays k live
    · subst here
      exact .inr (.inr (inv.straddles₀ (Nat.le_refl k) hit straddles))
    · rw [same]
      exact inv.origin k old
    · right
      left
      rw [start]
      exact UInt64.le_refl _
  · right
    refine ⟨⟨r, piece, cut.live.1, ?_⟩, d, entry, inv.hit₀ (Nat.le_refl d) hit⟩
    by_contra used
    exact (stays r ⟨cut.live.1, by simpa using used⟩).1 rfl
  · intro _
    exact ⟨d, entry, inv.straddles₀ (Nat.le_refl d) hit straddles⟩

theorem Progress.first_straddle (inv : Progress t₀ addr stop lo d t) (tidy : Tidy t₀) (hit : Hit t addr stop d)
    (straddles : Straddles t addr d) : lo = 0 := by
  by_contra positive
  obtain ⟨l, below, other⟩ := inv.jumped (by omega)
  have here := inv.straddles₀ (Nat.le_refl d) hit straddles
  have : l = d := tidy.unique other.1 here.1 ⟨UInt64.le_of_lt other.2.1, other.2.2⟩ ⟨UInt64.le_of_lt here.2.1, here.2.2⟩
  omega

theorem Progress.slot_straddle (inv : Progress t₀ addr stop lo d t) (hit : Hit t addr stop d)
    (slot : vmaAllocSlot t = some r) : r < d ∨ t = t₀ ∧ d < r := by
  rcases inv.touched with ⟨same, _⟩ | ⟨⟨f, below, bound, free⟩, _⟩
  · rcases Nat.lt_trichotomy r d with before | here | after
    · exact .inl before
    · exact absurd here (slot_ne_live slot hit.1)
    · exact .inr ⟨same, after⟩
  · obtain ⟨r', slot', before⟩ := vmaAllocSlot_below below (Nat.le_of_lt hit.1.1) free
    rw [slot] at slot'
    cases slot'
    exact .inl before

end Progress

end SwiftBSD.Proof.User
