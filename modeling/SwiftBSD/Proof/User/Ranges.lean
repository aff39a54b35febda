import SwiftBSD.Proof.User.Exact
import SwiftBSD.Proof.User.Pieces

namespace SwiftBSD.Proof.User
open SwiftBSD.User SwiftBSD.Mm Lib

variable {t t' t₀ u : Vmas} {addr stop p q a : UInt64} {i j k r d : Nat} {prot : Int32} {x y : Mapping} {b : Bool}

open Classical in
/-- The number of splits that are still to be made at `p`. -/
noncomputable def cutsLeft (t : Vmas) (p : UInt64) : Nat := if ∃ k, Straddles t p k then 1 else 0

/-- The slots in use once the table is split at `p` and `q`. -/
noncomputable def slotsNeeded (t : Vmas) (p q : UInt64) : Nat := usedCount t + cutsLeft t p + cutsLeft t q

theorem slotsNeeded_comm : slotsNeeded t p q = slotsNeeded t q p := by
  unfold slotsNeeded
  omega

theorem cutsLeft_straddles (straddles : Straddles t p k) : cutsLeft t p = 1 := if_pos ⟨k, straddles⟩

theorem cutsLeft_none (none : ∀ k, ¬Straddles t p k) : cutsLeft t p = 0 := if_neg fun ⟨k, straddles⟩ => none k straddles

theorem cutsLeft_le : cutsLeft t p ≤ 1 := by
  unfold cutsLeft
  split <;> omega

theorem cutsLeft_mono (old : ∀ k, Straddles u p k → ∃ k', Straddles t p k') : cutsLeft u p ≤ cutsLeft t p := by
  by_cases some : ∃ k, Straddles u p k
  · obtain ⟨k, straddles⟩ := some
    obtain ⟨k', straddles'⟩ := old k straddles
    rw [cutsLeft_straddles straddles, cutsLeft_straddles straddles']
  · rw [cutsLeft_none fun k straddles => some ⟨k, straddles⟩]
    exact Nat.zero_le _

theorem slot_free (room : usedCount t < vmaMax) : ∃ r, vmaAllocSlot t = some r := by
  cases slot : vmaAllocSlot t with
  | some r => exact ⟨r, rfl⟩
  | none =>
      have all := vmaAllocSlot_none.mp slot
      have full : usedCount t = vmaMax := by
        unfold usedCount countUsed
        rw [Finset.filter_true_of_mem fun k member => all k (Finset.mem_range.mp member), Finset.card_range]
      omega

theorem straddles_splitAt (live : Live t i) (slot : vmaAllocSlot t = some r) (inside : (t.entry i).start < p ∧ p < (t.entry i).stop)
    (straddles : Straddles (splitAt t i r p) q k) : (k = i ∧ q < p ∨ k = r ∧ p < q) ∧ Straddles t q i ∨
      k ≠ i ∧ k ≠ r ∧ Straddles t q k := by
  obtain ⟨live', lower, upper⟩ := straddles
  rcases splitAt_cases live slot live' with ⟨here, equal⟩ | ⟨here, equal⟩ | ⟨left, right, old, equal⟩
  · rw [equal] at lower upper
    exact .inl ⟨.inl ⟨here, upper⟩, live, lower, UInt64.lt_trans upper inside.2⟩
  · rw [equal] at lower upper
    exact .inl ⟨.inr ⟨here, lower⟩, live, UInt64.lt_trans inside.1 lower, upper⟩
  · rw [equal] at lower upper
    exact .inr ⟨left, right, old, lower, upper⟩

theorem Regions.unique (regions : Regions t) (here : Live t i) (there : Live t j) (covers : Covers (t.entry i) a)
    (covers' : Covers (t.entry j) a) : i = j := by
  by_contra differ
  have := regions.disjoint i j here there differ
  unfold Covers at covers covers'
  grind

theorem Straddles.covers (straddles : Straddles t p k) : Covers (t.entry k) p := ⟨UInt64.le_of_lt straddles.2.1, straddles.2.2⟩

theorem splitAt_not_straddles (regions : Regions t) (live : Live t i) (slot : vmaAllocSlot t = some r)
    (inside : (t.entry i).start < p ∧ p < (t.entry i).stop) : ¬Straddles (splitAt t i r p) p k := by
  intro straddles
  rcases straddles_splitAt live slot inside straddles with ⟨⟨-, less⟩ | ⟨-, less⟩, -⟩ | ⟨other, -, old⟩
  · exact absurd less (UInt64.lt_irrefl p)
  · exact absurd less (UInt64.lt_irrefl p)
  · exact other (regions.unique old.1 live old.covers ⟨UInt64.le_of_lt inside.1, inside.2⟩)

theorem slotsNeeded_splitAt (regions : Regions t) (live : Live t i) (slot : vmaAllocSlot t = some r)
    (inside : (t.entry i).start < p ∧ p < (t.entry i).stop) : slotsNeeded (splitAt t i r p) p q ≤ slotsNeeded t p q := by
  have before := cutsLeft_straddles (t := t) (p := p) (k := i) ⟨live, inside⟩
  have after := cutsLeft_none fun k => splitAt_not_straddles (k := k) regions live slot inside
  have other : cutsLeft (splitAt t i r p) q ≤ cutsLeft t q := cutsLeft_mono fun k straddles => by
    rcases straddles_splitAt live slot inside straddles with ⟨-, old⟩ | ⟨-, -, old⟩
    · exact ⟨i, old⟩
    · exact ⟨k, old⟩
  have used := @usedCount_splitAt t i r p live slot
  unfold slotsNeeded
  omega

theorem slotsNeeded_merged (apart : p ≠ q) (second : Live t j) (differ : i ≠ j) (first : Live t i)
    (joins : Joins (t.entry i) (t.entry j)) : slotsNeeded (merged t i j) p q ≤ slotsNeeded t p q := by
  have used := usedCount_clear second (@merged_used t i j)
  have point : ∀ v, v ≠ (t.entry j).start → cutsLeft (merged t i j) v ≤ cutsLeft t v := by
    intro v other
    refine cutsLeft_mono fun k straddles => ?_
    obtain ⟨live, lower, upper⟩ := straddles
    obtain ⟨old, -, ⟨-, equal⟩ | ⟨-, equal⟩⟩ := merged_cases differ live
    · rw [equal] at lower upper
      have joined := joins.1
      rcases UInt64.lt_or_lt_of_ne other with before | behind
      · exact ⟨i, first, lower, by rw [joined]; exact before⟩
      · exact ⟨j, second, behind, upper⟩
    · rw [equal] at lower upper
      exact ⟨k, old, lower, upper⟩
  unfold slotsNeeded
  have := @cutsLeft_le (merged t i j) p
  have := @cutsLeft_le (merged t i j) q
  by_cases here : p = (t.entry j).start
  · have := point q fun same => apart (here.trans same.symm)
    omega
  · have := point p here
    omega

def paint (prot : Int32) (x : Mapping) : Mapping := { x with prot }

/-- Outside the range the same is mapped, and inside it the same up to the protection. -/
structure Paints (prot : Int32) (addr stop : UInt64) (t u : Vmas) : Prop where
  regions : Regions u
  outside : ∀ a x, ¬InRange addr stop a → (Maps u a x ↔ Maps t a x)
  same : ∀ a y, (∃ x, Maps u a x ∧ paint prot x = y) ↔ ∃ x, Maps t a x ∧ paint prot x = y
  count : u.count - usedCount u = t.count - usedCount t

theorem Paints.trans (first : Paints prot addr stop t t') (second : Paints prot addr stop t' u) : Paints prot addr stop t u where
  regions := second.regions
  outside := fun a x out => (second.outside a x out).trans (first.outside a x out)
  same := fun a y => (second.same a y).trans (first.same a y)
  count := second.count.trans first.count

theorem SameMap.paints (same : SameMap t u) : Paints prot addr stop t u where
  regions := same.regions
  outside := fun a x _ => same.maps a x
  same := fun a _ => exists_congr fun x => and_congr_left' (same.maps a x)
  count := same.count

theorem setProt_entry (t : Vmas) (i k : Nat) (prot : Int32) :
    (setProt t i prot).entry k = if k = i then { t.entry k with prot } else t.entry k := by
  by_cases here : k = i
  · subst here
    simp [setProt]
  · simp [setProt, here]

theorem setProt_bounds (t : Vmas) (i k : Nat) (prot : Int32) : ((setProt t i prot).entry k).start = (t.entry k).start ∧
    ((setProt t i prot).entry k).stop = (t.entry k).stop ∧ ((setProt t i prot).entry k).used = (t.entry k).used ∧
      paint prot (mapping ((setProt t i prot).entry k) a) = paint prot (mapping (t.entry k) a) := by
  rw [setProt_entry]
  split
  · exact ⟨rfl, rfl, rfl, rfl⟩
  · exact ⟨rfl, rfl, rfl, rfl⟩

theorem usedCount_setProt : usedCount (setProt t i prot) = usedCount t := by
  unfold usedCount
  rw [funext fun k => (@setProt_bounds 0 t i k prot).2.2.1]

theorem straddles_setProt : Straddles (setProt t i prot) p k ↔ Straddles t p k := by
  unfold Straddles
  obtain ⟨start, stop, -⟩ := @setProt_bounds 0 t i k prot
  rw [live_setProt, start, stop]

theorem slotsNeeded_setProt : slotsNeeded (setProt t i prot) p q = slotsNeeded t p q := by
  have cuts : ∀ v, cutsLeft (setProt t i prot) v = cutsLeft t v := fun v => Nat.le_antisymm
    (cutsLeft_mono fun k straddles => ⟨k, straddles_setProt.mp straddles⟩) (cutsLeft_mono fun k straddles => ⟨k, straddles_setProt.mpr straddles⟩)
  unfold slotsNeeded
  rw [cuts, cuts, usedCount_setProt]

theorem covers_setProt : Covers ((setProt t i prot).entry k) a ↔ Covers (t.entry k) a := by
  unfold Covers
  obtain ⟨start, stop, -⟩ := @setProt_bounds 0 t i k prot
  rw [start, stop]

theorem Regions.setProt (regions : Regions t) : Regions (setProt t i prot) := by
  have bounds := fun k => @setProt_bounds 0 t i k prot
  refine ⟨fun k live => ?_, fun j k live live' differ => ?_⟩
  · rw [(bounds k).1, (bounds k).2.1]
    exact regions.nonempty k (live_setProt.mp live)
  · rw [(bounds j).1, (bounds j).2.1, (bounds k).1, (bounds k).2.1]
    exact regions.disjoint j k (live_setProt.mp live) (live_setProt.mp live') differ

theorem setProt_paints (regions : Regions t) (live : Live t i) (within : ∀ a, Covers (t.entry i) a → InRange addr stop a) :
    Paints prot addr stop t (setProt t i prot) where
  regions := regions.setProt
  outside := by
    intro a x out
    refine exists_congr fun k => ?_
    rw [live_setProt, covers_setProt]
    refine and_congr_right fun _ => and_congr_right fun covers => ?_
    rw [setProt_entry, if_neg]
    rintro rfl
    exact out (within a covers)
  same := by
    intro a y
    constructor
    · rintro ⟨x, ⟨k, live', covers, rfl⟩, rfl⟩
      exact ⟨_, ⟨k, live_setProt.mp live', covers_setProt.mp covers, rfl⟩, (setProt_bounds t i k prot).2.2.2.symm⟩
    · rintro ⟨x, ⟨k, live', covers, rfl⟩, rfl⟩
      exact ⟨_, ⟨k, live_setProt.mpr live', covers_setProt.mpr covers, rfl⟩, (setProt_bounds t i k prot).2.2.2⟩
  count := by rw [usedCount_setProt]; rfl

theorem protect_slots (live : Live t j) (stays : Live (protect prot t j) k) :
    k ≤ j ∧ ((protect prot t j).entry k).prot = prot ∨ k ≠ j ∧ Live t k ∧ (protect prot t j).entry k = t.entry k := by
  have piece : ((setProt t j prot).entry j).prot = prot := by
    rw [setProt_entry, if_pos rfl]
  have other : ∀ n, n ≠ j → (setProt t j prot).entry n = t.entry n := fun n differ => by rw [setProt_entry, if_neg differ]
  unfold protect at stays ⊢
  rcases vmaTryMerge_cases (setProt t j prot) j with ⟨i, rfl, used, joins, equal⟩ | ⟨-, ⟨next, joins, equal⟩ | ⟨-, equal⟩⟩
  · rw [equal] at stays ⊢
    obtain ⟨old, differ⟩ := live_merged.mp stays
    by_cases before : k = i
    · subst before
      left
      rw [merged_left (by omega)]
      have compat := joins.2
      unfold vmaCompat at compat
      simp only [decide_eq_true_eq] at compat
      exact ⟨by omega, compat.1.trans piece⟩
    · right
      rw [merged_other before differ]
      exact ⟨differ, live_setProt.mp old, other k differ⟩
  · rw [equal] at stays ⊢
    obtain ⟨old, differ⟩ := live_merged.mp stays
    by_cases here : k = j
    · subst here
      left
      rw [merged_left (by omega)]
      exact ⟨Nat.le_refl _, piece⟩
    · right
      rw [merged_other here differ]
      exact ⟨here, live_setProt.mp old, other k here⟩
  · rw [equal] at stays ⊢
    by_cases here : k = j
    · subst here
      exact .inl ⟨Nat.le_refl _, piece⟩
    · exact .inr ⟨here, live_setProt.mp stays, other k here⟩

theorem slotsNeeded_protect (apart : p ≠ q) (live : Live t j) : slotsNeeded (protect prot t j) p q ≤ slotsNeeded t p q := by
  have live' : Live (setProt t j prot) j := live_setProt.mpr live
  rw [← @slotsNeeded_setProt t p q j prot]
  unfold protect
  rcases vmaTryMerge_cases (setProt t j prot) j with ⟨i, rfl, used, joins, equal⟩ | ⟨-, ⟨next, joins, equal⟩ | ⟨-, equal⟩⟩
  · rw [equal]
    exact slotsNeeded_merged apart live' (by omega) ⟨Nat.lt_of_succ_lt live.1, used⟩ joins
  · rw [equal]
    exact slotsNeeded_merged apart next (by omega) live' joins
  · rw [equal]

theorem protect_paints (regions : Regions t) (live : Live t j) (within : ∀ a, Covers (t.entry j) a → InRange addr stop a) :
    Paints prot addr stop t (protect prot t j) :=
  (setProt_paints regions live within).trans (vmaTryMerge_same regions.setProt (live_setProt.mpr live)).paints

/-- The piece `j` of entry `i` that lies in the range, with a slot for each split that was needed. -/
structure CutOut (t t' : Vmas) (addr stop : UInt64) (i j : Nat) : Prop where
  same : SameMap t t'
  live : Live t' j
  within : ∀ a, Covers (t'.entry j) a → InRange addr stop a
  room : slotsNeeded t' addr stop ≤ slotsNeeded t addr stop
  hit : ∀ k, k ≠ j → Hit t' addr stop k → Hit t addr stop k ∧ t'.entry k = t.entry k
  straddles : ∀ k, Straddles t' addr k → Straddles t addr k ∧ ¬Straddles t addr i
  slot : j = i ∧ ¬Straddles t addr i ∨ Straddles t addr i ∧ ¬Hit t' addr stop i

theorem trim_within (regions : Regions t) (live : Live t j) (starts : (t.entry j).start < stop)
    (room : slotsNeeded t addr stop ≤ vmaMax) :
    SameMap t (trim t j stop) ∧ slotsNeeded (trim t j stop) addr stop ≤ slotsNeeded t addr stop ∧
      ((trim t j stop).entry j).start = (t.entry j).start ∧ ((trim t j stop).entry j).stop ≤ stop := by
  rcases trim_cases t j stop with ⟨why, equal⟩ | ⟨q, inside, slot, equal⟩
  · rw [equal]
    refine ⟨.refl regions, Nat.le_refl _, rfl, ?_⟩
    rcases why with start | ends | full
    · exact absurd starts (UInt64.not_lt.mpr start)
    · exact ends
    · by_contra behind
      have one : cutsLeft t stop = 1 := cutsLeft_straddles ⟨live, starts, UInt64.not_le.mp behind⟩
      unfold slotsNeeded at room
      obtain ⟨r, slot⟩ := slot_free (show usedCount t < vmaMax by omega)
      rw [full] at slot
      cases slot
  · rw [equal]
    refine ⟨.splitAt regions live slot inside, ?_, ?_, ?_⟩
    · rw [slotsNeeded_comm, @slotsNeeded_comm t]
      exact slotsNeeded_splitAt regions live slot inside
    · rw [splitAt_left]
      rfl
    · rw [splitAt_left]
      exact UInt64.le_refl stop

theorem cutOut_within (regions : Regions t) (range : addr < stop) (room : slotsNeeded t addr stop ≤ vmaMax) (hit : Hit t addr stop i)
    (cut : cutOut t i addr stop = some (j, t')) : CutOut t t' addr stop i j := by
  rcases cutOut_some hit cut with ⟨inside, rfl, rfl⟩ | ⟨straddles, slot, rfl⟩
  · obtain ⟨same, room', start, ends⟩ := trim_within regions hit.1 hit.2.2 room
    have not : ¬Straddles t addr j := fun straddles => absurd straddles.2.1 (UInt64.not_lt.mpr inside)
    refine ⟨same, live_trim hit.1 hit.1, fun a covers => ?_, room', fun k other hit' => ?_, fun k straddles => ?_, .inl ⟨rfl, not⟩⟩
    · have := covers.1
      have := covers.2
      exact ⟨by grind, by grind⟩
    · rcases trim_new hit.1 hit'.1 other with ⟨old, equal⟩ | ⟨equal, -⟩
      · refine ⟨?_, equal⟩
        unfold Hit at hit' ⊢
        rw [equal] at hit'
        exact ⟨old, hit'.2⟩
      · have := hit'.2.2
        rw [equal] at this
        exact absurd this (UInt64.lt_irrefl stop)
    · have other : k ≠ j := by
        rintro rfl
        have := straddles.2.1
        rw [start] at this
        exact absurd this (UInt64.not_lt.mpr inside)
      rcases trim_new hit.1 straddles.1 other with ⟨old, equal⟩ | ⟨equal, -⟩
      · have bounds := straddles.2
        rw [equal] at bounds
        exact ⟨⟨old, bounds⟩, not⟩
      · have := straddles.2.1
        rw [equal] at this
        have : stop < addr := this
        grind
  · have differ := slot_ne_live slot hit.1
    have split : SameMap t (splitAt t i j addr) := .splitAt regions hit.1 slot straddles.2
    have live : Live (splitAt t i j addr) j := (live_splitAt hit.1 slot).mpr (.inr rfl)
    have begins : ((splitAt t i j addr).entry j).start = addr := by
      rw [splitAt_right differ]
      rfl
    have needed := slotsNeeded_splitAt (q := stop) regions hit.1 slot straddles.2
    obtain ⟨same, room', start, ends⟩ := trim_within split.regions live (by rw [begins]; exact range) (Nat.le_trans needed room)
    have old : ∀ k, k ≠ j → Live (trim (splitAt t i j addr) j stop) k →
        Live (splitAt t i j addr) k ∧ (trim (splitAt t i j addr) j stop).entry k = (splitAt t i j addr).entry k ∨
          ((trim (splitAt t i j addr) j stop).entry k).start = stop := by
      intro k other live'
      rcases trim_new live live' other with keeps | ⟨equal, -⟩
      · exact .inl keeps
      · right
        rw [equal]
        rfl
    have left : ∀ k, k ≠ j → Hit (trim (splitAt t i j addr) j stop) addr stop k → k ≠ i ∧ Hit t addr stop k ∧
        (trim (splitAt t i j addr) j stop).entry k = t.entry k := by
      intro k other hit'
      rcases old k other hit'.1 with ⟨live', equal⟩ | start'
      · have bounds := hit'.2
        rw [equal] at bounds ⊢
        rcases splitAt_cases hit.1 slot live' with ⟨-, equal'⟩ | ⟨here, -⟩ | ⟨apart, -, live₀, equal'⟩
        · rw [equal'] at bounds
          exact absurd bounds.1 (UInt64.lt_irrefl addr)
        · exact absurd here other
        · rw [equal'] at bounds ⊢
          exact ⟨apart, ⟨live₀, bounds⟩, rfl⟩
      · have := hit'.2.2
        rw [start'] at this
        exact absurd this (UInt64.lt_irrefl stop)
    refine ⟨⟨same.regions, fun a x => (same.maps a x).trans (split.maps a x), same.count.trans split.count⟩, live_trim live live,
      fun a covers => ?_, Nat.le_trans room' needed, fun k other hit' => (left k other hit').2, fun k straddles' => ?_,
      .inr ⟨straddles, fun hit' => (left i (Ne.symm differ) hit').1 rfl⟩⟩
    · have := covers.1
      have := covers.2
      exact ⟨by grind, by grind⟩
    · have other : k ≠ j := by
        rintro rfl
        have := straddles'.2.1
        rw [start, begins] at this
        exact absurd this (UInt64.lt_irrefl addr)
      rcases old k other straddles'.1 with ⟨live', equal⟩ | start'
      · have bounds := straddles'.2
        rw [equal] at bounds
        exact absurd ⟨live', bounds⟩ (splitAt_not_straddles regions hit.1 slot straddles.2)
      · have := straddles'.2.1
        rw [start'] at this
        grind

/-- The loop is at slot `i`, and the slots before `d` are done. -/
structure Painting (prot : Int32) (t₀ : Vmas) (addr stop : UInt64) (i d : Nat) (t : Vmas) : Prop where
  paints : Paints prot addr stop t₀ t
  regions : Regions t
  done : ∀ k, k < d → Hit t addr stop k → (t.entry k).prot = prot
  ahead : ∀ k, d ≤ k → Hit t addr stop k → t.entry k = t₀.entry k
  room : slotsNeeded t addr stop ≤ vmaMax
  behind : i ≤ d
  cut : ∀ k, i ≤ k → k < d → ¬Straddles t addr k

/-- The entry in which the range starts is in the last slot that overlaps the range. -/
def StartsLast (t : Vmas) (addr stop : UInt64) : Prop := ∀ l, Straddles t addr l → ∀ k, l < k → ¬Hit t addr stop k

theorem Painting.start (regions : Regions t₀) (room : slotsNeeded t₀ addr stop ≤ vmaMax) : Painting prot t₀ addr stop 0 0 t₀ where
  paints := (SameMap.refl regions).paints
  regions := regions
  done := fun k below => absurd below (Nat.not_lt_zero k)
  ahead := fun _ _ _ => rfl
  room := room
  behind := Nat.le_refl 0
  cut := fun k _ below => absurd below (Nat.not_lt_zero k)

theorem Painting.skip (inv : Painting prot t₀ addr stop i d t) (apart : ¬Hit t addr stop i) :
    Painting prot t₀ addr stop (i + 1) (max d (i + 1)) t where
  paints := inv.paints
  regions := inv.regions
  done := fun k below hit => by
    rcases Nat.lt_or_ge k d with before | after
    · exact inv.done k before hit
    · have here : k = i := by
        have := inv.behind
        omega
      subst here
      exact absurd hit apart
  ahead := fun k after => inv.ahead k (by omega)
  room := inv.room
  behind := by omega
  cut := fun k lower upper => inv.cut k (by omega) (by omega)

theorem Painting.piece (inv : Painting prot t₀ addr stop i d t) (range : addr < stop) (last : StartsLast t₀ addr stop)
    (hit : Hit t addr stop i) (cut : cutOut t i addr stop = some (j, t')) :
    Painting prot t₀ addr stop (j + 1) (max (max d (i + 1)) (j + 1)) (protect prot t' j) := by
  obtain ⟨same, live, within, room, hits, straddles, slot⟩ := cutOut_within inv.regions range inv.room hit cut
  have painted : Paints prot addr stop t' (protect prot t' j) := protect_paints same.regions live within
  have behind := inv.behind
  -- a slot that overlaps the range afterwards has the protection, or is as it was
  have slots : ∀ k, Hit (protect prot t' j) addr stop k →
      k ≤ j ∧ ((protect prot t' j).entry k).prot = prot ∨ k ≠ j ∧ Hit t addr stop k ∧ (protect prot t' j).entry k = t.entry k ∧
        Hit t' addr stop k := by
    intro k hit'
    rcases protect_slots live hit'.1 with done | ⟨other, live', equal⟩
    · exact .inl done
    · have meets := hit'.2
      rw [equal] at meets
      obtain ⟨old, equal'⟩ := hits k other ⟨live', meets⟩
      exact .inr ⟨other, old, equal.trans equal', live', meets⟩
  -- behind a piece that was split off, no slot overlaps the range
  have none : Straddles t addr i → ∀ k, i < k → ¬Hit t addr stop k := by
    intro starts k after hit'
    have here : i = d := by
      by_contra before
      exact inv.cut i (Nat.le_refl i) (by omega) starts
    have equal := inv.ahead i (by omega) hit
    have equal' := inv.ahead k (by omega) hit'
    refine last i ?_ k after ?_
    · unfold Straddles Live at starts ⊢
      rwa [equal] at starts
    · unfold Hit Live at hit' ⊢
      rwa [equal'] at hit'
  refine ⟨(inv.paints.trans same.paints).trans painted, painted.regions, fun k below hit' => ?_, fun k after hit' => ?_, ?_, by omega,
    fun k lower upper starts => ?_⟩
  · rcases slots k hit' with ⟨-, done⟩ | ⟨other, old, equal, meets⟩
    · exact done
    · rw [equal]
      rcases Nat.lt_or_ge k d with before | after
      · exact inv.done k before old
      · rcases slot with ⟨rfl, -⟩ | ⟨starts, gone⟩
        · omega
        · rcases Nat.lt_or_ge i k with later | earlier
          · exact absurd old (none starts k later)
          · have here : k = i := by omega
            subst here
            exact absurd meets gone
  · rcases slots k hit' with ⟨below, -⟩ | ⟨-, old, equal, -⟩
    · omega
    · rw [equal]
      exact inv.ahead k (by omega) old
  · exact Nat.le_trans (slotsNeeded_protect (UInt64.ne_of_lt range) live) (Nat.le_trans room inv.room)
  · rcases protect_slots live starts.1 with ⟨below, -⟩ | ⟨-, live', equal⟩
    · omega
    · have bounds := starts.2
      rw [equal] at bounds
      obtain ⟨old, not⟩ := straddles k ⟨live', bounds⟩
      rcases slot with ⟨rfl, -⟩ | ⟨starts', -⟩
      · rcases Nat.lt_or_ge k d with before | after
        · exact inv.cut k (by omega) before old
        · omega
      · exact not starts'

theorem sweep_protect (sweep : TableSweep (protect prot) addr stop i t b u) (range : addr < stop) (last : StartsLast t₀ addr stop)
    (inv : Painting prot t₀ addr stop i d t) :
    b = true ∧ Paints prot addr stop t₀ u ∧ ∀ k, Hit u addr stop k → (u.entry k).prot = prot := by
  induction sweep generalizing d with
  | done past => exact ⟨rfl, inv.paints, fun k hit => inv.done k (by have := hit.1.1; have := inv.behind; omega) hit⟩
  | skip bound apart rest ih => exact ih (inv.skip apart)
  | @refused i t hit cut =>
      obtain ⟨straddles, full⟩ := cutOut_none hit cut
      have one := cutsLeft_straddles straddles
      have room := inv.room
      unfold slotsNeeded at room
      obtain ⟨r, slot⟩ := slot_free (show usedCount t < vmaMax by omega)
      rw [full] at slot
      cases slot
  | piece hit cut rest ih => exact ih (inv.piece range last hit cut)

/-- `SC_MPROTECT` changes the protection of what is mapped in the range, and nothing else. -/
theorem mprotect_range {pagePml4 length result : UInt64} {fuel : Nat} {s s' : Space} (regions : Regions s.vmas) (nonzero : length ≠ 0)
    (range : addr < addr + roundUp length) (room : slotsNeeded s.vmas addr (addr + roundUp length) ≤ vmaMax)
    (last : StartsLast s.vmas addr (addr + roundUp length)) (run : (scMprotect pagePml4 fuel addr length prot).run s = some (result, s')) :
    result = 0 ∧ Regions s'.vmas ∧ s'.vmas.count - usedCount s'.vmas = s.vmas.count - usedCount s.vmas ∧
      (∀ a x, InRange addr (addr + roundUp length) a → (Maps s'.vmas a x ↔ ∃ y, Maps s.vmas a y ∧ x = paint prot y)) ∧
      ∀ a x, ¬InRange addr (addr + roundUp length) a → (Maps s'.vmas a x ↔ Maps s.vmas a x) := by
  unfold scMprotect at run
  rw [if_neg nonzero] at run
  obtain ⟨b, s₁, loop, run⟩ := run_bind_eq_some.mp run
  have sweep := forOverlapping_sweep (fun j s s' => protectSlot_vmas) loop
  obtain ⟨rfl, paints, done⟩ := sweep_protect sweep range last (.start regions room)
  cases run
  refine ⟨rfl, paints.regions, paints.count, fun a x inside => ?_, paints.outside⟩
  -- in the range, painting again changes nothing
  have painted : ∀ x, Maps s'.vmas a x → paint prot x = x := by
    rintro x ⟨k, live, covers, rfl⟩
    have hit : Hit s'.vmas addr (addr + roundUp length) k := ⟨live, UInt64.lt_of_le_of_lt inside.1 covers.2, UInt64.lt_of_le_of_lt covers.1 inside.2⟩
    unfold paint mapping
    rw [done k hit]
  constructor
  · intro maps
    obtain ⟨y, maps', same⟩ := (paints.same a x).mp ⟨x, maps, painted x maps⟩
    exact ⟨y, maps', same.symm⟩
  · rintro ⟨y, maps, rfl⟩
    obtain ⟨x, maps', same⟩ := (paints.same a (paint prot y)).mpr ⟨y, maps, rfl⟩
    rw [← same, painted x maps']
    exact maps'

theorem usedCount_threePages : usedCount threePages.vmas = 1 := by decide +kernel

theorem mprotect_range_threePages : ∃ s', (scMprotect 0 200 0x40001000 0x1000 1).run threePages = some (0, s') ∧
    ∀ a x, InRange 0x40001000 0x40002000 a → (Maps s'.vmas a x ↔ ∃ y, Maps threePages.vmas a y ∧ x = paint 1 y) := by
  have runs : ((scMprotect 0 200 0x40001000 0x1000 1).run threePages).isSome = true := by decide +kernel
  obtain ⟨⟨result, s'⟩, run⟩ := Option.isSome_iff_exists.mp runs
  have room : slotsNeeded threePages.vmas 0x40001000 (0x40001000 + roundUp 0x1000) ≤ vmaMax := by
    have := @cutsLeft_le threePages.vmas 0x40001000
    have := @cutsLeft_le threePages.vmas (0x40001000 + roundUp 0x1000)
    have := usedCount_threePages
    have many : vmaMax = 64 := rfl
    unfold slotsNeeded
    omega
  have last : StartsLast threePages.vmas 0x40001000 (0x40001000 + roundUp 0x1000) := by
    intro l starts k after hit
    have := live_threePages starts.1
    have := live_threePages hit.1
    omega
  obtain ⟨rfl, -, -, inside, -⟩ := mprotect_range regions_threePages (by decide) (by decide) room last run
  exact ⟨s', run, inside⟩

theorem sweep_release_exact (sweep : TableSweep release addr stop i t b u) (tidy : Tidy t₀) (cuts : CutsAligned t₀ addr stop) (range : addr < stop)
    (starts : ∀ k, ¬Straddles t₀ addr k) (clean : ∀ k, Hit t₀ addr stop k → FreesCleanly t₀ addr stop k) (inv : Exact t₀ addr stop i t) :
    b = true ∧ Exact t₀ addr stop (max i vmaMax) u := by
  induction sweep with
  | @done i t past =>
      rw [Nat.max_eq_left past]
      exact ⟨rfl, inv⟩
  | @skip i t u b bound apart rest ih =>
      have := ih (inv.skip range apart)
      rwa [show max (i + 1) vmaMax = max i vmaMax by omega] at this
  | @refused i t hit cut =>
      have straddles := (cutOut_none hit cut).1
      exact absurd (inv.straddles₀ (Nat.le_refl i) hit straddles) (starts i)
  | @piece i j t t' u b hit cut rest ih =>
      rcases cutOut_some hit cut with ⟨inside, rfl, rfl⟩ | ⟨straddles, -, -⟩
      · have bound := hit.1.1
        have := ih (inv.free tidy cuts hit inside (clean j (inv.hit₀ (Nat.le_refl j) hit)))
        rwa [show max (j + 1) vmaMax = max j vmaMax by omega] at this
      · exact absurd (inv.straddles₀ (Nat.le_refl i) hit straddles) (starts i)

/-- Where the range does not start inside an entry and each of its entries is freed cleanly, `SC_MUNMAP` unmaps the range and nothing else. -/
theorem munmap_range {pagePml4 length result : UInt64} {fuel : Nat} {s s' : Space} (tidy : Tidy s.vmas) (nonzero : length ≠ 0)
    (range : addr < addr + roundUp length) (cuts : CutsAligned s.vmas addr (addr + roundUp length))
    (starts : ∀ k, ¬Straddles s.vmas addr k)
    (clean : ∀ k, Hit s.vmas addr (addr + roundUp length) k → FreesCleanly s.vmas addr (addr + roundUp length) k)
    (run : (scMunmap pagePml4 fuel addr length).run s = some (result, s')) :
    result = 0 ∧ Tidy s'.vmas ∧ ∀ a x, Maps s'.vmas a x ↔ Maps s.vmas a x ∧ ¬InRange addr (addr + roundUp length) a := by
  unfold scMunmap at run
  rw [if_neg nonzero] at run
  obtain ⟨b, s₁, loop, run⟩ := run_bind_eq_some.mp run
  have sweep := forOverlapping_sweep (fun j s s' => unmapSlot_vmas) loop
  obtain ⟨rfl, inv⟩ := sweep_release_exact sweep tidy cuts range starts clean (exact_start tidy)
  cases run
  refine ⟨rfl, inv.tidy, fun a x => ⟨fun maps => ⟨inv.inside a x maps, fun inside => ?_⟩, fun ⟨maps, out⟩ => inv.outside a x out maps⟩⟩
  obtain ⟨k, live, covers, -⟩ := maps
  exact inv.behind k (Nat.zero_le k) (by have := live.1; omega)
    ⟨live, UInt64.lt_of_le_of_lt inside.1 covers.2, UInt64.lt_of_le_of_lt covers.1 inside.2⟩

theorem tidy_threePages : Tidy threePages.vmas where
  nonempty := regions_threePages.nonempty
  disjoint := regions_threePages.disjoint
  counted := by rw [usedCount_threePages]; rfl
  aligned := fun k live => by
    obtain rfl := live_threePages live
    unfold Aligned
    decide

theorem munmap_range_threePages : ∃ s', (scMunmap 0 200 0x40000000 0x3000).run threePages = some (0, s') ∧
    ∀ a x, Maps s'.vmas a x ↔ Maps threePages.vmas a x ∧ ¬InRange 0x40000000 0x40003000 a := by
  have runs : ((scMunmap 0 200 0x40000000 0x3000).run threePages).isSome = true := by decide +kernel
  obtain ⟨⟨result, s'⟩, run⟩ := Option.isSome_iff_exists.mp runs
  have cuts : CutsAligned threePages.vmas 0x40000000 (0x40000000 + roundUp 0x3000) := by
    rintro p (rfl | rfl) k _ _ _ <;> (unfold Aligned; decide)
  have starts : ∀ k, ¬Straddles threePages.vmas 0x40000000 k := by
    intro k straddles
    obtain rfl := live_threePages straddles.1
    exact absurd straddles.2.1 (by decide)
  have clean : ∀ k, Hit threePages.vmas 0x40000000 (0x40000000 + roundUp 0x3000) k →
      FreesCleanly threePages.vmas 0x40000000 (0x40000000 + roundUp 0x3000) k := by
    intro k hit
    obtain rfl := live_threePages hit.1
    refine ⟨fun j next => absurd next (by omega), fun behind => absurd behind (by decide), fun _ live => ?_⟩
    exact absurd (live_threePages live) (by decide)
  obtain ⟨rfl, -, exactly⟩ := munmap_range tidy_threePages (by decide) (by decide) cuts starts clean run
  exact ⟨s', run, exactly⟩

end SwiftBSD.Proof.User
