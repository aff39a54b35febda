import Mathlib.Data.Finset.Card
import SwiftBSD.User.Vma

namespace SwiftBSD.Proof.User
open SwiftBSD.User SwiftBSD.Mm Lib

def Live (t : Vmas) (i : Nat) : Prop := i < vmaMax ∧ (t.entry i).used = true

def Covers (v : Vma) (a : UInt64) : Prop := v.start ≤ a ∧ a < v.stop

def Aligned (a : UInt64) : Prop := a.toNat % 4096 = 0

def countUsed (used : Nat → Bool) : Nat := ((Finset.range vmaMax).filter fun i => used i = true).card

def usedCount (t : Vmas) : Nat := countUsed fun i => (t.entry i).used

structure Tidy (t : Vmas) : Prop where
  nonempty : ∀ i, Live t i → (t.entry i).start < (t.entry i).stop
  aligned : ∀ i, Live t i → Aligned (t.entry i).start ∧ Aligned (t.entry i).stop
  disjoint : ∀ i j, Live t i → Live t j → i ≠ j →
    (t.entry i).stop ≤ (t.entry j).start ∨ (t.entry j).stop ≤ (t.entry i).start
  counted : t.count = usedCount t

/-- The entries in use are nonempty and disjoint. -/
structure Regions (t : Vmas) : Prop where
  nonempty : ∀ i, Live t i → (t.entry i).start < (t.entry i).stop
  disjoint : ∀ i j, Live t i → Live t j → i ≠ j → (t.entry i).stop ≤ (t.entry j).start ∨ (t.entry j).stop ≤ (t.entry i).start

theorem Tidy.regions {t : Vmas} (tidy : Tidy t) : Regions t := ⟨tidy.nonempty, tidy.disjoint⟩

theorem Tidy.unique {t : Vmas} {i j : Nat} {a : UInt64} (tidy : Tidy t) (here : Live t i) (there : Live t j)
    (covers : Covers (t.entry i) a) (covers' : Covers (t.entry j) a) : i = j := by
  by_contra differ
  have := tidy.disjoint i j here there differ
  unfold Covers at covers covers'
  grind

theorem countUsed_set {used : Nat → Bool} {i : Nat} (bound : i < vmaMax) (free : used i = false) :
    countUsed (Function.update used i true) = countUsed used + 1 := by
  have split : (Finset.range vmaMax).filter (fun k => Function.update used i true k = true) =
      insert i ((Finset.range vmaMax).filter fun k => used k = true) := by
    ext k
    by_cases here : k = i
    · subst here
      simp [bound]
    · simp [here]
  unfold countUsed
  rw [split, Finset.card_insert_of_notMem]
  simp [free]

theorem countUsed_clear {used : Nat → Bool} {i : Nat} (bound : i < vmaMax) (taken : used i = true) :
    countUsed (Function.update used i false) + 1 = countUsed used := by
  have := @countUsed_set (Function.update used i false) i bound (by simp)
  rw [Function.update_idem, ← taken, Function.update_eq_self] at this
  exact this.symm

section Slots
variable {t : Vmas} {r : Nat}

theorem vmaAllocSlot_some (slot : vmaAllocSlot t = some r) :
    r < vmaMax ∧ (t.entry r).used = false ∧ ∀ k, k < r → Live t k := by
  obtain ⟨_, upper, free, before⟩ := firstFrom_some slot
  refine ⟨by omega, by simpa using free, fun k below => ⟨by omega, ?_⟩⟩
  have := before k (Nat.zero_le k) below
  simpa using this

theorem vmaAllocSlot_none : vmaAllocSlot t = none ↔ ∀ k, k < vmaMax → (t.entry k).used = true := by
  unfold vmaAllocSlot
  rw [firstFrom_none]
  constructor
  · intro all k bound
    have := all k (Nat.zero_le k) (by omega)
    simpa using this
  · intro all k _ bound
    have := all k (by omega)
    simp [this]

theorem vmaAllocSlot_below {n f : Nat} (bound : f < n) (upper : n ≤ vmaMax) (free : (t.entry f).used = false) :
    ∃ r, vmaAllocSlot t = some r ∧ r < n := by
  cases slot : vmaAllocSlot t with
  | none =>
      have := vmaAllocSlot_none.mp slot f (by omega)
      rw [free] at this
      cases this
  | some r =>
      refine ⟨r, rfl, ?_⟩
      by_contra above
      have := ((vmaAllocSlot_some slot).2.2 f (by omega)).2
      rw [free] at this
      cases this

theorem slot_ne_live {i : Nat} (slot : vmaAllocSlot t = some r) (live : Live t i) : r ≠ i := by
  rintro rfl
  have := (vmaAllocSlot_some slot).2.1
  rw [live.2] at this
  cases this

end Slots

def rightPart (v : Vma) (p : UInt64) : Vma := { v with start := p, foff := v.foff + (p - v.start) }

def leftPart (v : Vma) (p : UInt64) : Vma := { v with stop := p }

def splitAt (t : Vmas) (i r : Nat) (p : UInt64) : Vmas :=
  ⟨Function.update (Function.update t.entry r (rightPart (t.entry i) p)) i (leftPart (t.entry i) p), t.count + 1⟩

theorem vmaSplit_eq_some {t t' : Vmas} {i r : Nat} {p : UInt64} : vmaSplit t i p = some (r, t') ↔
    ((t.entry i).start < p ∧ p < (t.entry i).stop) ∧ vmaAllocSlot t = some r ∧ t' = splitAt t i r p := by
  unfold vmaSplit
  dsimp only
  split
  · next outside => grind
  · next inside =>
      cases slot : vmaAllocSlot t with
      | none => simp
      | some k =>
          have inside' : (t.entry i).start < p ∧ p < (t.entry i).stop := by grind
          simp only [Option.some.injEq, Prod.mk.injEq, inside', true_and]
          constructor
          · rintro ⟨rfl, rfl⟩
            exact ⟨rfl, rfl⟩
          · rintro ⟨rfl, rfl⟩
            exact ⟨rfl, rfl⟩

theorem vmaSplit_eq_none {t : Vmas} {i : Nat} {p : UInt64} : vmaSplit t i p = none ↔
    (p ≤ (t.entry i).start ∨ (t.entry i).stop ≤ p) ∨ vmaAllocSlot t = none := by
  unfold vmaSplit
  dsimp only
  split
  · next outside => simp [outside]
  · next inside =>
      cases slot : vmaAllocSlot t with
      | none => simp
      | some k => simp [inside]

section Split
variable {t : Vmas} {i r : Nat} {p : UInt64}

@[simp] theorem splitAt_left : (splitAt t i r p).entry i = leftPart (t.entry i) p := by simp [splitAt]

theorem splitAt_right (differ : r ≠ i) : (splitAt t i r p).entry r = rightPart (t.entry i) p := by
  simp [splitAt, differ]

theorem splitAt_other {k : Nat} (left : k ≠ i) (right : k ≠ r) : (splitAt t i r p).entry k = t.entry k := by
  simp [splitAt, left, right]

theorem splitAt_used (live : Live t i) (slot : vmaAllocSlot t = some r) :
    (fun k => ((splitAt t i r p).entry k).used) = Function.update (fun k => (t.entry k).used) r true := by
  have differ := slot_ne_live slot live
  funext k
  by_cases left : k = i
  · subst left
    rw [Function.update_of_ne (Ne.symm differ)]
    simp [leftPart]
  · by_cases right : k = r
    · subst right
      simp [splitAt_right differ, rightPart, live.2]
    · simp [splitAt_other left right, right]

theorem live_splitAt {k : Nat} (live : Live t i) (slot : vmaAllocSlot t = some r) :
    Live (splitAt t i r p) k ↔ Live t k ∨ k = r := by
  have flags := congrFun (splitAt_used (p := p) live slot) k
  unfold Live
  rw [flags]
  by_cases right : k = r
  · subst right
    simp [(vmaAllocSlot_some slot).1]
  · simp [right]

theorem splitAt_cases {k : Nat} (live : Live t i) (slot : vmaAllocSlot t = some r) (live' : Live (splitAt t i r p) k) :
    (k = i ∧ (splitAt t i r p).entry k = leftPart (t.entry i) p) ∨ (k = r ∧ (splitAt t i r p).entry k = rightPart (t.entry i) p) ∨
      (k ≠ i ∧ k ≠ r ∧ Live t k ∧ (splitAt t i r p).entry k = t.entry k) := by
  by_cases left : k = i
  · subst left
    exact .inl ⟨rfl, splitAt_left⟩
  by_cases right : k = r
  · subst right
    exact .inr (.inl ⟨rfl, splitAt_right (slot_ne_live slot live)⟩)
  · exact .inr (.inr ⟨left, right, ((live_splitAt live slot).mp live').resolve_right right, splitAt_other left right⟩)

theorem Regions.splitAt (regions : Regions t) (live : Live t i) (slot : vmaAllocSlot t = some r)
    (inside : (t.entry i).start < p ∧ p < (t.entry i).stop) : Regions (splitAt t i r p) := by
  have disjoint := regions.disjoint
  refine ⟨fun k live' => ?_, fun j k live₁ live₂ apart => ?_⟩
  · rcases splitAt_cases live slot live' with ⟨_, equal⟩ | ⟨_, equal⟩ | ⟨_, _, old, equal⟩
    · rw [equal]
      exact inside.1
    · rw [equal]
      exact inside.2
    · rw [equal]
      exact regions.nonempty k old
  · rcases splitAt_cases live slot live₁ with ⟨hj, eq₁⟩ | ⟨hj, eq₁⟩ | ⟨hj, _, old₁, eq₁⟩ <;>
      rcases splitAt_cases live slot live₂ with ⟨hk, eq₂⟩ | ⟨hk, eq₂⟩ | ⟨hk, _, old₂, eq₂⟩ <;>
      rw [eq₁, eq₂] <;> grind [leftPart, rightPart]

theorem usedCount_splitAt (live : Live t i) (slot : vmaAllocSlot t = some r) : usedCount (splitAt t i r p) = usedCount t + 1 := by
  obtain ⟨bound, free, -⟩ := vmaAllocSlot_some slot
  unfold usedCount
  rw [splitAt_used live slot]
  exact @countUsed_set (fun k => (t.entry k).used) r bound free

theorem Tidy.splitAt (tidy : Tidy t) (live : Live t i) (slot : vmaAllocSlot t = some r)
    (inside : (t.entry i).start < p ∧ p < (t.entry i).stop) (aligned : Aligned p) : Tidy (splitAt t i r p) := by
  have regions := tidy.regions.splitAt live slot inside
  have bounds := tidy.aligned i live
  refine ⟨regions.nonempty, fun k live' => ?_, regions.disjoint, ?_⟩
  · rcases splitAt_cases live slot live' with ⟨_, equal⟩ | ⟨_, equal⟩ | ⟨_, _, old, equal⟩
    · rw [equal]
      exact ⟨bounds.1, aligned⟩
    · rw [equal]
      exact ⟨aligned, bounds.2⟩
    · rw [equal]
      exact tidy.aligned k old
  · change t.count + 1 = _
    rw [usedCount_splitAt live slot, tidy.counted]
    rfl

end Split

section Free
variable {t t' : Vmas} {i : Nat}

theorem Tidy.sub (tidy : Tidy t) (old : ∀ k, Live t' k → Live t k ∧ t'.entry k = t.entry k)
    (counted : t'.count = usedCount t') : Tidy t' := by
  refine ⟨fun k live => ?_, fun k live => ?_, fun j k live₁ live₂ apart => ?_, counted⟩
  · obtain ⟨live', equal⟩ := old k live
    rw [equal]
    exact tidy.nonempty k live'
  · obtain ⟨live', equal⟩ := old k live
    rw [equal]
    exact tidy.aligned k live'
  · obtain ⟨live₁', equal₁⟩ := old j live₁
    obtain ⟨live₂', equal₂⟩ := old k live₂
    rw [equal₁, equal₂]
    exact tidy.disjoint j k live₁' live₂' apart

theorem usedCount_clear (live : Live t i) (flags : (fun k => (t'.entry k).used) = Function.update (fun k => (t.entry k).used) i false) :
    usedCount t' + 1 = usedCount t := by
  unfold usedCount
  rw [flags]
  exact @countUsed_clear (fun k => (t.entry k).used) i live.1 live.2

theorem freeSlot_other {k : Nat} (other : k ≠ i) : (freeSlot t i).entry k = t.entry k := by simp [freeSlot, other]

theorem freeSlot_used : (fun k => ((freeSlot t i).entry k).used) = Function.update (fun k => (t.entry k).used) i false := by
  funext k
  by_cases here : k = i
  · subst here
    simp [freeSlot]
  · simp [freeSlot, here]

theorem live_freeSlot {k : Nat} : Live (freeSlot t i) k ↔ Live t k ∧ k ≠ i := by
  have flags := congrFun (@freeSlot_used t i) k
  unfold Live
  rw [flags]
  by_cases here : k = i
  · simp [here]
  · simp [here]

theorem Tidy.freeSlot (tidy : Tidy t) (live : Live t i) : Tidy (freeSlot t i) := by
  refine tidy.sub (fun k live' => ?_) ?_
  · obtain ⟨old, other⟩ := live_freeSlot.mp live'
    exact ⟨old, freeSlot_other other⟩
  · have := usedCount_clear live freeSlot_used
    change t.count - 1 = _
    rw [tidy.counted]
    omega

end Free

def Joins (a b : Vma) : Prop := a.stop = b.start ∧ vmaCompat a b = true

def merged (t : Vmas) (a b : Nat) : Vmas :=
  ⟨Function.update (Function.update t.entry a { t.entry a with stop := (t.entry b).stop }) b { t.entry b with used := false },
    t.count - 1⟩

theorem mergeInto_eq (t : Vmas) (a b : Nat) [Decidable (Joins (t.entry a) (t.entry b))] :
    mergeInto t a b = if Joins (t.entry a) (t.entry b) then some (merged t a b) else none := by
  unfold mergeInto Joins
  simp only [merged]
  congr

section Merge
variable {t : Vmas} {i : Nat}

theorem vmaTryMerge_cases (t : Vmas) (i : Nat) :
    (∃ j, i = j + 1 ∧ (t.entry j).used = true ∧ Joins (t.entry j) (t.entry i) ∧ vmaTryMerge t i = merged t j i) ∨
    ((∀ j, i = j + 1 → (t.entry j).used = true → ¬Joins (t.entry j) (t.entry i)) ∧
      ((Live t (i + 1) ∧ Joins (t.entry i) (t.entry (i + 1)) ∧ vmaTryMerge t i = merged t i (i + 1)) ∨
        ((Live t (i + 1) → ¬Joins (t.entry i) (t.entry (i + 1))) ∧ vmaTryMerge t i = t))) := by
  classical
  unfold vmaTryMerge
  simp only [mergeInto_eq]
  by_cases left : (0 < i ∧ (t.entry (i - 1)).used = true) ∧ Joins (t.entry (i - 1)) (t.entry i)
  · obtain ⟨⟨positive, used⟩, joins⟩ := left
    left
    exact ⟨i - 1, by omega, used, joins, by simp [positive, used, joins]⟩
  · right
    refine ⟨fun j same used joins => left ?_, ?_⟩
    · subst same
      exact ⟨⟨by omega, used⟩, joins⟩
    · have skip : (if 0 < i ∧ (t.entry (i - 1)).used = true then
          if Joins (t.entry (i - 1)) (t.entry i) then some (merged t (i - 1) i) else none else none) = none := by
        split
        · next before => exact if_neg fun joins => left ⟨before, joins⟩
        · rfl
      rw [skip]
      dsimp only
      by_cases right : Live t (i + 1) ∧ Joins (t.entry i) (t.entry (i + 1))
      · obtain ⟨live, joins⟩ := right
        left
        refine ⟨live, joins, ?_⟩
        have used : i + 1 < vmaMax ∧ (t.entry (i + 1)).used = true := live
        rw [if_pos used, if_pos joins]
      · right
        refine ⟨fun live joins => right ⟨live, joins⟩, ?_⟩
        by_cases used : i + 1 < vmaMax ∧ (t.entry (i + 1)).used = true
        · rw [if_pos used, if_neg fun joins => right ⟨used, joins⟩]
        · rw [if_neg used]

theorem merged_used {a b : Nat} :
    (fun k => ((merged t a b).entry k).used) = Function.update (fun k => (t.entry k).used) b false := by
  funext k
  by_cases hb : k = b
  · subst hb
    simp [merged]
  · by_cases ha : k = a
    · subst ha
      simp [merged, hb]
    · simp [merged, hb, ha]

theorem live_merged {a b k : Nat} : Live (merged t a b) k ↔ Live t k ∧ k ≠ b := by
  have flags := congrFun (@merged_used t a b) k
  unfold Live
  rw [flags]
  by_cases here : k = b
  · simp [here]
  · simp [here]

theorem merged_left {a b : Nat} (apart : a ≠ b) :
    (merged t a b).entry a = { t.entry a with stop := (t.entry b).stop } := by simp [merged, apart]

theorem merged_other {a b k : Nat} (ha : k ≠ a) (hb : k ≠ b) : (merged t a b).entry k = t.entry k := by
  simp [merged, ha, hb]

theorem merged_cases {i j k : Nat} (apart : i ≠ j) (live : Live (merged t i j) k) : Live t k ∧ k ≠ j ∧
    ((k = i ∧ (merged t i j).entry k = { t.entry i with stop := (t.entry j).stop }) ∨ (k ≠ i ∧ (merged t i j).entry k = t.entry k)) := by
  obtain ⟨old, other⟩ := live_merged.mp live
  refine ⟨old, other, ?_⟩
  by_cases here : k = i
  · subst here
    exact .inl ⟨rfl, merged_left apart⟩
  · exact .inr ⟨here, merged_other here other⟩

theorem Regions.merged {i j : Nat} (regions : Regions t) (first : Live t i) (second : Live t j) (apart : i ≠ j)
    (joins : Joins (t.entry i) (t.entry j)) : Regions (merged t i j) := by
  have nonempty := regions.nonempty
  have disjoint := regions.disjoint
  have one := nonempty i first
  have two := nonempty j second
  have joined := joins.1
  refine ⟨fun k live => ?_, fun k l live₁ live₂ differ => ?_⟩
  · obtain ⟨old, -, ⟨-, equal⟩ | ⟨-, equal⟩⟩ := merged_cases apart live
    · rw [equal]
      grind
    · rw [equal]
      exact nonempty k old
  · obtain ⟨old₁, _, ⟨_, equal₁⟩ | ⟨_, equal₁⟩⟩ := merged_cases apart live₁ <;>
      obtain ⟨old₂, _, ⟨_, equal₂⟩ | ⟨_, equal₂⟩⟩ := merged_cases apart live₂ <;>
      rw [equal₁, equal₂] <;> grind

theorem Tidy.merged {a b : Nat} (tidy : Tidy t) (first : Live t a) (second : Live t b) (apart : a ≠ b)
    (joins : Joins (t.entry a) (t.entry b)) : Tidy (merged t a b) := by
  have regions := tidy.regions.merged first second apart joins
  refine ⟨regions.nonempty, fun k live => ?_, regions.disjoint, ?_⟩
  · obtain ⟨old, _, ⟨_, equal⟩ | ⟨_, equal⟩⟩ := merged_cases apart live
    · rw [equal]
      exact ⟨(tidy.aligned a first).1, (tidy.aligned b second).2⟩
    · rw [equal]
      exact tidy.aligned k old
  · have := usedCount_clear second (@merged_used t a b)
    change t.count - 1 = _
    rw [tidy.counted]
    omega

end Merge

end SwiftBSD.Proof.User
