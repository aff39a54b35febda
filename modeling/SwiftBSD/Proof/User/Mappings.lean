import SwiftBSD.Proof.Mm.Entry
import SwiftBSD.Proof.User.Progress

namespace SwiftBSD.Proof.User
open SwiftBSD.User SwiftBSD.Mm Lib

section Tables
variable {s s' : Space} {i : Nat}

theorem liftMm_vmas {α : Type} (x : MmM α) : Keeps Space.vmas (liftMm x) := by
  intro s a t run
  change (x.run s.machine).map _ = some (a, t) at run
  obtain ⟨⟨b, machine⟩, _, same⟩ := Option.map_eq_some_iff.mp run
  simp only [Prod.mk.injEq] at same
  rw [← same.2]

theorem forPages_vmas {body : UInt64 → UserM Unit} (each : ∀ p, Keeps Space.vmas (body p)) (start stop : UInt64) :
    Keeps Space.vmas (forPages body start stop) := by
  unfold forPages
  split
  · exact .forRange (fun k => each _) _ _
  · exact .failure

theorem writebackPage_vmas (pagePml4 : UInt64) (v : Vma) (p : UInt64) : Keeps Space.vmas (writebackPage pagePml4 v p) := by
  unfold writebackPage
  refine .bind (liftMm_vmas _) fun found => ?_
  cases found with
  | none => exact .pure ()
  | some entry =>
      refine .bind (liftMm_vmas _) fun pte => ?_
      split
      · exact .bind (.modify fun _ => rfl) fun _ => liftMm_vmas _
      · exact .pure ()

theorem protectPage_vmas (pagePml4 : UInt64) (prot : Int32) (p : UInt64) :
    Keeps Space.vmas (protectPage pagePml4 prot p) := by
  unfold protectPage
  refine .bind (liftMm_vmas _) fun found => ?_
  cases found with
  | none => exact .pure ()
  | some entry =>
      refine .bind (liftMm_vmas _) fun pte => ?_
      split
      · exact liftMm_vmas _
      · exact .pure ()

theorem vmaWritebackDirty_vmas (pagePml4 start stop : UInt64) (v : Vma) :
    Keeps Space.vmas (vmaWritebackDirty pagePml4 start stop v) := by
  unfold vmaWritebackDirty
  split
  · exact .pure ()
  · exact forPages_vmas (writebackPage_vmas pagePml4 v) _ _

theorem unmapSlot_vmas {pagePml4 : UInt64} (run : (unmapSlot pagePml4 i).run s = some ((), s')) :
    s'.vmas = release s.vmas i := by
  unfold unmapSlot at run
  obtain ⟨_, s₁, got, run⟩ := run_bind_eq_some.mp run
  cases got
  obtain ⟨_, s₁, written, run⟩ := run_bind_eq_some.mp run
  obtain ⟨_, s₂, unmapped, run⟩ := run_bind_eq_some.mp run
  cases run
  have same₁ := vmaWritebackDirty_vmas _ _ _ _ s _ s₁ written
  have same₂ := forPages_vmas (fun p => liftMm_vmas (vmmUnmap pagePml4 p)) _ _ s₁ _ s₂ unmapped
  change release s₂.vmas i = _
  rw [same₂, same₁]

/-- The entry with its new protection, merged with its neighbours. -/
def protect (prot : Int32) (t : Vmas) (i : Nat) : Vmas := vmaTryMerge (setProt t i prot) i

theorem protectSlot_vmas {pagePml4 : UInt64} {prot : Int32} (run : (protectSlot pagePml4 prot i).run s = some ((), s')) :
    s'.vmas = protect prot s.vmas i := by
  unfold protectSlot at run
  obtain ⟨_, s₁, set, run⟩ := run_bind_eq_some.mp run
  cases set
  obtain ⟨_, s₁, got, run⟩ := run_bind_eq_some.mp run
  cases got
  obtain ⟨_, s₂, pages, run⟩ := run_bind_eq_some.mp run
  cases run
  have same := forPages_vmas (protectPage_vmas pagePml4 prot) _ _ _ _ s₂ pages
  change vmaTryMerge s₂.vmas i = _
  rw [same]
  rfl

end Tables

/-- No freed slot is merged with the entry before it: the first entry of the range does not continue the entry in the slot
before, and the right part of an entry in which the range starts does not go to the next slot (it would if that is the
first free one and the entry is the first that overlaps the range). -/
def NoRejoin (t : Vmas) (addr stop : UInt64) : Prop :=
  (∀ j, Live t j → Hit t addr stop (j + 1) → (t.entry (j + 1)).start = addr → ¬Joins (t.entry j) (t.entry (j + 1))) ∧
  ∀ l, Hit t addr stop l → Straddles t addr l → (∀ h, h < l → ¬Hit t addr stop h) → vmaAllocSlot t ≠ some (l + 1)

section Munmap
variable {t₀ t t' u : Vmas} {addr stop : UInt64} {lo d i j : Nat} {b : Bool}

theorem Progress.piece (inv : Progress t₀ addr stop lo d t) (tidy : Tidy t₀) (cuts : CutsAligned t₀ addr stop)
    (rejoin : NoRejoin t₀ addr stop) (hit : Hit t addr stop d) (cut : cutOut t d addr stop = some (j, t')) :
    ∃ lo' d', Progress t₀ addr stop lo' d' (release t' j) ∧ lo' ≤ j + 1 ∧ j + 1 ≤ d' ∧ d < d' := by
  rcases cutOut_some hit cut with ⟨inside, rfl, rfl⟩ | ⟨straddles, slot, rfl⟩
  · refine ⟨lo, j + 1, inv.whole cuts hit fun k next live joins => ?_, ?_, Nat.le_refl _, Nat.lt_succ_self _⟩
    · obtain ⟨before, start, joins'⟩ := inv.left_whole tidy cuts hit inside next live joins
      subst next
      exact rejoin.1 k before (inv.hit₀ (Nat.le_refl _) hit) start joins'
    · rcases inv.low with zero | below <;> omega
  · have first := inv.first_straddle tidy hit straddles
    have left : ∀ k, j = k + 1 → Live (straddleCut t d j addr stop) k →
        ¬Joins ((straddleCut t d j addr stop).entry k) ((straddleCut t d j addr stop).entry j) := by
      intro k next live joins
      have here := inv.left_straddle cuts hit straddles slot next live joins
      subst here
      rcases inv.slot_straddle hit slot with before | ⟨same, _⟩
      · omega
      · apply rejoin.2 k (inv.hit₀ (Nat.le_refl k) hit) (inv.straddles₀ (Nat.le_refl k) hit straddles)
        · intro h below
          rw [← same]
          exact inv.behind h (by omega) below
        · rw [← same, slot, next]
    rcases inv.slot_straddle hit slot with before | ⟨_, after⟩
    · refine ⟨0, d + 1, inv.straddle cuts hit straddles slot left (fun k lower upper here _ => ?_) (by omega) (by omega) (.inl rfl),
        by omega, by omega, by omega⟩
      exact inv.behind k (by omega) (by omega)
    · refine ⟨j, j + 1, inv.straddle cuts hit straddles slot left (fun k lower upper _ piece => ?_) (by omega) (by omega) (.inr (by omega)),
        by omega, by omega, by omega⟩
      omega

theorem sweep_release_tidy (sweep : TableSweep release addr stop i t b u) (inv : Progress t₀ addr stop lo d t)
    (lower : lo ≤ i) (upper : i ≤ d) (tidy : Tidy t₀) (cuts : CutsAligned t₀ addr stop) (rejoin : NoRejoin t₀ addr stop) :
    Tidy u := by
  induction sweep generalizing lo d with
  | done past => exact inv.tidy
  | @skip i t u b bound apart rest ih =>
      rcases Nat.lt_or_eq_of_le upper with below | rfl
      · exact ih inv (by omega) (by omega)
      · exact ih (inv.skip apart) (by omega) (Nat.le_refl _)
  | refused hit cut => exact inv.tidy
  | @piece i j t t' u b hit cut rest ih =>
      rcases Nat.lt_or_eq_of_le upper with below | rfl
      · exact absurd hit (inv.behind i lower below)
      · obtain ⟨lo', d', inv', lower', upper', _⟩ := inv.piece tidy cuts rejoin hit cut
        exact ih inv' lower' upper'

end Munmap

def Covered (t : Vmas) (a : UInt64) : Prop := ∃ k, Live t k ∧ Covers (t.entry k) a

section Mprotect
variable {t₀ t t' u : Vmas} {addr stop p : UInt64} {i j r : Nat} {b : Bool} {prot : Int32}

theorem covered_splitAt {a : UInt64} (live : Live t i) (slot : vmaAllocSlot t = some r)
    (inside : (t.entry i).start < p ∧ p < (t.entry i).stop) (covered : Covered (splitAt t i r p) a) : Covered t a := by
  obtain ⟨k, live', covers⟩ := covered
  have differ := slot_ne_live slot live
  by_cases left : k = i
  · subst left
    rw [splitAt_left] at covers
    refine ⟨k, live, covers.1, ?_⟩
    have := covers.2
    simp only [leftPart] at this
    grind
  · by_cases right : k = r
    · subst right
      rw [splitAt_right differ] at covers
      refine ⟨i, live, ?_, covers.2⟩
      have := covers.1
      simp only [rightPart] at this
      grind
    · rw [splitAt_other left right] at covers
      exact ⟨k, ((live_splitAt live slot).mp live').resolve_right right, covers⟩

theorem covered_merged {a : UInt64} {m n : Nat} (first : Live t m) (second : Live t n) (apart : m ≠ n)
    (joins : Joins (t.entry m) (t.entry n)) (covered : Covered (merged t m n) a) : Covered t a := by
  obtain ⟨k, live, covers⟩ := covered
  obtain ⟨old, other⟩ := live_merged.mp live
  by_cases here : k = m
  · subst here
    rw [merged_left apart] at covers
    by_cases before : a < (t.entry k).stop
    · exact ⟨k, first, covers.1, before⟩
    · refine ⟨n, second, ?_, covers.2⟩
      have := joins.1
      grind
  · rw [merged_other here other] at covers
    exact ⟨k, old, covers⟩

theorem CutsAligned.covered (cuts : CutsAligned t₀ addr stop) (tidy : Tidy t₀)
    (covered : ∀ a, Covered t a → Covered t₀ a) : CutsAligned t addr stop := by
  intro p cut k live lower upper
  obtain ⟨k₀, live₀, covers⟩ := covered p ⟨k, live, UInt64.le_of_lt lower, upper⟩
  by_cases start : (t₀.entry k₀).start = p
  · rw [← start]
    exact (tidy.aligned k₀ live₀).1
  · apply cuts p cut k₀ live₀ _ covers.2
    have := covers.1
    grind

theorem Tidy.setProt (tidy : Tidy t) : Tidy (setProt t i prot) := by
  have same : ∀ k, ((SwiftBSD.User.setProt t i prot).entry k).start = (t.entry k).start ∧
      ((SwiftBSD.User.setProt t i prot).entry k).stop = (t.entry k).stop ∧
      ((SwiftBSD.User.setProt t i prot).entry k).used = (t.entry k).used := by
    intro k
    by_cases here : k = i
    · subst here
      simp [SwiftBSD.User.setProt]
    · simp [SwiftBSD.User.setProt, here]
  have live : ∀ k, Live (SwiftBSD.User.setProt t i prot) k → Live t k := by
    intro k live
    exact ⟨live.1, by rw [← (same k).2.2]; exact live.2⟩
  refine ⟨fun k live' => ?_, fun k live' => ?_, fun j k live₁ live₂ apart => ?_, ?_⟩
  · rw [(same k).1, (same k).2.1]
    exact tidy.nonempty k (live k live')
  · rw [(same k).1, (same k).2.1]
    exact tidy.aligned k (live k live')
  · rw [(same j).1, (same j).2.1, (same k).1, (same k).2.1]
    exact tidy.disjoint j k (live j live₁) (live k live₂) apart
  · change t.count = countUsed fun k => ((SwiftBSD.User.setProt t i prot).entry k).used
    rw [funext fun k => (same k).2.2]
    exact tidy.counted

theorem live_setProt {k : Nat} : Live (setProt t i prot) k ↔ Live t k := by
  unfold Live
  by_cases here : k = i
  · subst here
    simp [setProt]
  · simp [setProt, here]

theorem covered_setProt {a : UInt64} : Covered (setProt t i prot) a ↔ Covered t a := by
  unfold Covered
  simp only [live_setProt]
  apply exists_congr
  intro k
  by_cases here : k = i
  · subst here
    simp [setProt, Covers]
  · simp [setProt, here]

theorem tidy_protect (tidy : Tidy t) (live : Live t i) :
    Tidy (protect prot t i) ∧ ∀ a, Covered (protect prot t i) a → Covered t a := by
  have set : Tidy (setProt t i prot) := tidy.setProt
  have live' : Live (setProt t i prot) i := live_setProt.mpr live
  unfold protect
  rcases vmaTryMerge_cases (setProt t i prot) i with ⟨j, next, used, joins, equal⟩ | ⟨_, ⟨next, joins, equal⟩ | ⟨_, equal⟩⟩
  · rw [equal]
    have before : Live (setProt t i prot) j := ⟨by have := live.1; omega, used⟩
    refine ⟨set.merged before live' (by omega) joins, fun a covered => ?_⟩
    exact covered_setProt.mp (covered_merged before live' (by omega) joins covered)
  · rw [equal]
    refine ⟨set.merged live' next (by omega) joins, fun a covered => ?_⟩
    exact covered_setProt.mp (covered_merged live' next (by omega) joins covered)
  · rw [equal]
    exact ⟨set, fun a covered => covered_setProt.mp covered⟩

theorem tidy_trim (tidy : Tidy t) (live : Live t j) (cuts : CutsAligned t addr stop) :
    Tidy (trim t j stop) ∧ Live (trim t j stop) j ∧ ∀ a, Covered (trim t j stop) a → Covered t a := by
  have cut := trim_run tidy live (cuts stop (.inr rfl) j live)
  refine ⟨cut.tidy, cut.live, fun a covered => ?_⟩
  rcases trim_cases t j stop with ⟨_, equal⟩ | ⟨q, inside, slot, equal⟩
  · rwa [equal] at covered
  · rw [equal] at covered
    exact covered_splitAt live slot inside covered

theorem tidy_cutOut (tidy : Tidy t) (cuts : CutsAligned t addr stop) (hit : Hit t addr stop i)
    (cut : cutOut t i addr stop = some (j, t')) : Tidy t' ∧ Live t' j ∧ ∀ a, Covered t' a → Covered t a := by
  rcases cutOut_some hit cut with ⟨_, rfl, rfl⟩ | ⟨straddles, slot, rfl⟩
  · exact tidy_trim tidy hit.1 cuts
  · have aligned := cuts addr (.inl rfl) i hit.1 straddles.2.1 straddles.2.2
    have split := tidy.splitAt hit.1 slot straddles.2 aligned
    have covered := fun a => @covered_splitAt t addr i j a hit.1 slot straddles.2
    obtain ⟨trimmed, live, covered'⟩ := tidy_trim split ((live_splitAt hit.1 slot).mpr (.inr rfl)) (cuts.covered tidy covered)
    exact ⟨trimmed, live, fun a in' => covered a (covered' a in')⟩

theorem sweep_protect_tidy (sweep : TableSweep (protect prot) addr stop i t b u) (tidy : Tidy t)
    (cuts : CutsAligned t addr stop) : Tidy u := by
  induction sweep with
  | done past => exact tidy
  | skip bound apart rest ih => exact ih tidy cuts
  | refused hit cut => exact tidy
  | piece hit cut rest ih =>
      obtain ⟨tidy', live, covered⟩ := tidy_cutOut tidy cuts hit cut
      obtain ⟨tidy'', covered'⟩ := tidy_protect tidy' live
      exact ih tidy'' (cuts.covered tidy fun a in' => covered a (covered' a in'))

end Mprotect

/-- A mapping of `length` bytes at `base` is made of whole pages that no entry uses. -/
def Fits (t : Vmas) (base length : UInt64) : Prop :=
  Aligned base ∧ length ≠ 0 ∧ base.toNat + length.toNat < 2 ^ 64 ∧
    ∀ k, Live t k → (t.entry k).stop ≤ base ∨ base + length ≤ (t.entry k).start

theorem roundUp_aligned (length : UInt64) : Aligned (roundUp length) := by
  unfold Aligned roundUp
  rw [Proof.Mm.toNat_pageMask]
  omega

section Mmap
variable {t : Vmas} {base length : UInt64} {r : Nat} {v : Vma}

theorem vmaHint_eq (tidy : Tidy t) : Aligned (vmaHint t) ∧ ∀ k, Live t k → (t.entry k).stop ≤ vmaHint t := by
  -- over the slots seen so far, the hint is aligned and not below an end
  have fold : ∀ (slots : List Nat) (hint : UInt64), (∀ k, k ∈ slots → k < vmaMax) → Aligned hint →
      let top := slots.foldl (fun hint i => if (t.entry i).used = true ∧ hint < (t.entry i).stop then (t.entry i).stop else hint) hint
      Aligned top ∧ hint ≤ top ∧ ∀ k, k ∈ slots → (t.entry k).used = true → (t.entry k).stop ≤ top := by
    intro slots
    induction slots with
    | nil => exact fun hint _ aligned => ⟨aligned, UInt64.le_refl _, fun k member => absurd member (List.not_mem_nil)⟩
    | cons k rest ih =>
        intro hint bounds aligned
        rw [List.foldl_cons]
        by_cases higher : (t.entry k).used = true ∧ hint < (t.entry k).stop
        · rw [if_pos higher]
          have live : Live t k := ⟨bounds k (by simp), higher.1⟩
          obtain ⟨aligned', above, each⟩ := ih (t.entry k).stop (fun j member => bounds j (by simp [member])) (tidy.aligned k live).2
          refine ⟨aligned', by grind, fun j member used => ?_⟩
          rcases List.mem_cons.mp member with rfl | member
          · exact above
          · exact each j member used
        · rw [if_neg higher]
          obtain ⟨aligned', above, each⟩ := ih hint (fun j member => bounds j (by simp [member])) aligned
          refine ⟨aligned', above, fun j member used => ?_⟩
          rcases List.mem_cons.mp member with rfl | member
          · grind
          · exact each j member used
  obtain ⟨aligned, _, each⟩ := fold (List.range vmaMax) 0x40000000 (fun k member => List.mem_range.mp member) (by unfold Aligned; decide)
  have exact_ : vmaHint t = (List.range vmaMax).foldl
      (fun hint i => if (t.entry i).used = true ∧ hint < (t.entry i).stop then (t.entry i).stop else hint) 0x40000000 := by
    unfold vmaHint
    rw [← UInt64.toNat_inj, Proof.Mm.toNat_pageMask, UInt64.toNat_add]
    unfold Aligned at aligned
    generalize (List.range vmaMax).foldl _ _ = top at aligned
    have := top.toNat_lt
    simp only [UInt64.reduceToNat]
    omega
  rw [exact_]
  exact ⟨aligned, fun k live => each k (List.mem_range.mpr live.1) live.2⟩

theorem Tidy.map (tidy : Tidy t) (slot : vmaAllocSlot t = some r) (fits : Fits t base length) (rounded : Aligned length)
    (start : v.start = base) (stop : v.stop = base + length) (used : v.used = true) :
    Tidy ⟨Function.update t.entry r v, t.count + 1⟩ := by
  obtain ⟨aligned, positive, nowrap, apart⟩ := fits
  obtain ⟨bound, free, _⟩ := vmaAllocSlot_some slot
  have sum : (base + length).toNat = base.toNat + length.toNat := by
    rw [UInt64.toNat_add]
    omega
  have nonzero : length.toNat ≠ 0 := fun zero => positive (UInt64.toNat_inj.mp zero)
  have cases' : ∀ k, Live ⟨Function.update t.entry r v, t.count + 1⟩ k →
      k = r ∧ Function.update t.entry r v k = v ∨ k ≠ r ∧ Live t k ∧ Function.update t.entry r v k = t.entry k := by
    intro k live
    by_cases here : k = r
    · subst here
      exact .inl ⟨rfl, Function.update_self ..⟩
    · have same := Function.update_of_ne here v t.entry
      refine .inr ⟨here, ⟨live.1, ?_⟩, same⟩
      have := live.2
      simp only [same] at this
      exact this
  refine ⟨fun k live => ?_, fun k live => ?_, fun j k live₁ live₂ differ => ?_, ?_⟩
  · dsimp only
    rcases cases' k live with ⟨_, same⟩ | ⟨_, old, same⟩
    · rw [same, start, stop, UInt64.lt_iff_toNat_lt, sum]
      omega
    · rw [same]
      exact tidy.nonempty k old
  · dsimp only
    rcases cases' k live with ⟨_, same⟩ | ⟨_, old, same⟩
    · rw [same, start, stop]
      refine ⟨aligned, ?_⟩
      unfold Aligned at aligned rounded ⊢
      rw [sum]
      omega
    · rw [same]
      exact tidy.aligned k old
  · dsimp only
    rcases cases' j live₁ with ⟨here₁, same₁⟩ | ⟨_, old₁, same₁⟩ <;>
      rcases cases' k live₂ with ⟨here₂, same₂⟩ | ⟨_, old₂, same₂⟩
    · exact absurd (here₁.trans here₂.symm) differ
    · rw [same₁, same₂, start, stop]
      exact (apart k old₂).symm
    · rw [same₁, same₂, start, stop]
      exact apart j old₁
    · rw [same₁, same₂]
      exact tidy.disjoint j k old₁ old₂ differ
  · have flags : (fun k => (Function.update t.entry r v k).used) = Function.update (fun k => (t.entry k).used) r true := by
      funext k
      by_cases here : k = r
      · subst here
        simp [used]
      · simp [here]
    have := @countUsed_set (fun k => (t.entry k).used) r bound free
    change t.count + 1 = countUsed fun k => (Function.update t.entry r v k).used
    rw [flags, this, tidy.counted]
    rfl

end Mmap

def Orderly (t : Vmas) : VmCall → Prop
  | .mmap addr length _ _ => length = 0 ∨ vmaAllocSlot t = none ∨
      addr = 0 ∧ roundUp length ≠ 0 ∧ (vmaHint t).toNat + (roundUp length).toNat < 2 ^ 64 ∨
      addr ≠ 0 ∧ Fits t addr (roundUp length)
  | .munmap addr length => length = 0 ∨
      CutsAligned t addr (addr + roundUp length) ∧ NoRejoin t addr (addr + roundUp length)
  | .mprotect addr length _ => length = 0 ∨ CutsAligned t addr (addr + roundUp length)

section Calls
variable {pagePml4 addr length arg3 offset result : UInt64} {prot : Int32} {fuel : Nat} {s s' : Space}

theorem scMmap_tidy (tidy : Tidy s.vmas) (orderly : Orderly s.vmas (.mmap addr length arg3 offset))
    (run : (scMmap addr length arg3 offset).run s = some (result, s')) : Tidy s'.vmas := by
  unfold scMmap at run
  dsimp only at run
  by_cases zero : length = 0
  · rw [if_pos zero] at run
    cases run
    exact tidy
  · rw [if_neg zero] at run
    obtain ⟨_, s₁, got, run⟩ := run_bind_eq_some.mp run
    cases got
    cases slot : vmaAllocSlot s.vmas with
    | none =>
        simp only [slot] at run
        cases run
        exact tidy
    | some r =>
        simp only [slot] at run
        obtain ⟨_, s₁, set, run⟩ := run_bind_eq_some.mp run
        cases set
        cases run
        have fits : Fits s.vmas (if addr = 0 then vmaHint s.vmas else addr) (roundUp length) := by
          rcases orderly with zero' | full | ⟨null, positive, nowrap⟩ | ⟨given, fits⟩
          · exact absurd zero' zero
          · rw [slot] at full
            cases full
          · rw [if_pos null]
            obtain ⟨aligned, above⟩ := vmaHint_eq tidy
            exact ⟨aligned, positive, nowrap, fun k live => .inl (above k live)⟩
          · rw [if_neg given]
            exact fits
        exact tidy.map slot fits (roundUp_aligned length) rfl rfl rfl

theorem scMunmap_tidy (tidy : Tidy s.vmas) (orderly : Orderly s.vmas (.munmap addr length))
    (run : (scMunmap pagePml4 fuel addr length).run s = some (result, s')) : Tidy s'.vmas := by
  unfold scMunmap at run
  by_cases zero : length = 0
  · rw [if_pos zero] at run
    cases run
    exact tidy
  · rw [if_neg zero] at run
    obtain ⟨b, s₁, sweep, run⟩ := run_bind_eq_some.mp run
    have final : s' = s₁ := by
      cases b <;> cases run <;> rfl
    obtain ⟨cuts, rejoin⟩ := orderly.resolve_left zero
    have sweep' := forOverlapping_sweep (fun j s s' => unmapSlot_vmas) sweep
    rw [final]
    exact sweep_release_tidy sweep' (progress_start tidy) (Nat.le_refl 0) (Nat.le_refl 0) tidy cuts rejoin

theorem scMprotect_tidy (tidy : Tidy s.vmas) (orderly : Orderly s.vmas (.mprotect addr length prot))
    (run : (scMprotect pagePml4 fuel addr length prot).run s = some (result, s')) : Tidy s'.vmas := by
  unfold scMprotect at run
  by_cases zero : length = 0
  · rw [if_pos zero] at run
    cases run
    exact tidy
  · rw [if_neg zero] at run
    obtain ⟨b, s₁, sweep, run⟩ := run_bind_eq_some.mp run
    have final : s' = s₁ := by
      cases b <;> cases run <;> rfl
    have sweep' := forOverlapping_sweep (fun j s s' => protectSlot_vmas) sweep
    rw [final]
    exact sweep_protect_tidy sweep' tidy (orderly.resolve_left zero)

end Calls

def Unmapped (t : Vmas) : Prop := t.count = 0 ∧ ∀ k, k < vmaMax → (t.entry k).used = false

theorem tidy_unmapped {t : Vmas} (empty : Unmapped t) : Tidy t := by
  have none : ∀ k, ¬Live t k := by
    rintro k ⟨bound, used⟩
    rw [empty.2 k bound] at used
    cases used
  refine ⟨fun k live => absurd live (none k), fun k live => absurd live (none k), fun j _ live => absurd live (none j), ?_⟩
  have : usedCount t = 0 := by
    unfold usedCount countUsed
    rw [Finset.card_eq_zero, Finset.filter_eq_empty_iff]
    intro k member used
    exact none k ⟨Finset.mem_range.mp member, used⟩
  rw [empty.1, this]
  rfl

/-- Over every run of calls from an empty table that are orderly when they are made, the entries in use are nonempty,
page-aligned and disjoint, and `vma_count` is their number. -/
theorem vmas_tidy {pagePml4 : UInt64} {s t : Space} (empty : Unmapped s.vmas)
    (run : VmRun pagePml4 (fun s => Orderly s.vmas) s t) : Tidy t.vmas := by
  induction run with
  | start => exact tidy_unmapped empty
  | @step t u call fuel result before allowed run ih =>
      cases call with
      | mmap addr length arg3 offset => exact scMmap_tidy ih allowed run
      | munmap addr length => exact scMunmap_tidy ih allowed run
      | mprotect addr length prot => exact scMprotect_tidy ih allowed run

/-- A process without mappings, and tables that are empty. -/
def emptySpace : Space where
  vmas := ⟨fun _ => ⟨0, 0, 0, 0, 0, 0, false⟩, 0⟩
  machine := ⟨fun _ _ => 0, fun _ => false, 0, 0, 0, Nat.zero_le _⟩
  written := []

theorem unmapped_emptySpace : Unmapped emptySpace.vmas := ⟨rfl, fun _ _ => rfl⟩

/-- The space after calls, if they all come back. -/
def afterCalls (pagePml4 : UInt64) (fuel : Nat) (s : Space) : List VmCall → Option Space
  | [] => some s
  | call :: rest => match (call.prog pagePml4 fuel).run s with
      | some (_, t) => afterCalls pagePml4 fuel t rest
      | none => none

theorem run_afterCalls {pagePml4 : UInt64} {fuel : Nat} {s t u : Space} {calls : List VmCall}
    (before : VmRun pagePml4 (fun _ _ => True) s t) (run : afterCalls pagePml4 fuel t calls = some u) :
    VmRun pagePml4 (fun _ _ => True) s u := by
  induction calls generalizing t with
  | nil =>
      cases run
      exact before
  | cons call rest ih =>
      unfold afterCalls at run
      split at run
      · next step => exact ih (before.step trivial step) run
      · cases run

def threePages : Space :=
  { emptySpace with vmas := ⟨Function.update emptySpace.vmas.entry 0 ⟨0x40000000, 0x40003000, 3, 3, 0, 0, true⟩, 1⟩ }

theorem live_threePages {k : Nat} (live : Live threePages.vmas k) : k = 0 := by
  by_contra other
  have := live.2
  simp [threePages, emptySpace, other] at this

theorem vmas_tidy_threePages : ∃ t, VmRun 0 (fun s => Orderly s.vmas) emptySpace t ∧ Tidy t.vmas := by
  have fits : Orderly emptySpace.vmas (.mmap 0x40000000 0x3000 3 0) := by
    refine .inr (.inr (.inr ⟨by decide, by unfold Aligned; decide, by decide, by decide, fun k live => ?_⟩))
    cases live.2
  have mapped : (VmCall.prog 0 0 (.mmap 0x40000000 0x3000 3 0)).run emptySpace = some (0x40000000, threePages) := rfl
  have orderly : Orderly threePages.vmas (.munmap 0x40000000 0x3000) := by
    refine .inr ⟨?_, fun j _ hit => ?_, fun l hit straddles => ?_⟩
    · rintro p (rfl | rfl) k _ _ _ <;> (unfold Aligned; decide)
    · exact absurd (live_threePages hit.1) (by omega)
    · obtain rfl := live_threePages hit.1
      exact absurd straddles.2.1 (by decide)
  have unmapped : ((VmCall.prog 0 200 (.munmap 0x40000000 0x3000)).run threePages).isSome = true := by decide +kernel
  obtain ⟨⟨result, t⟩, unmapped⟩ := Option.isSome_iff_exists.mp unmapped
  have run : VmRun 0 (fun s => Orderly s.vmas) emptySpace t := .step (.step .start fits mapped) orderly unmapped
  exact ⟨t, run, vmas_tidy unmapped_emptySpace run⟩

/-- Three pages are mapped, and the one in the middle is unmapped again: the first entry gets it back, and the freed slot is
counted twice. -/
theorem vmas_untidy : ∃ t, VmRun 0 (fun _ _ => True) emptySpace t ∧ Unmapped emptySpace.vmas ∧ ¬Tidy t.vmas := by
  have run : ∃ t, afterCalls 0 200 emptySpace [.mmap 0x40000000 0x3000 3 0, .munmap 0x40001000 0x1000] = some t ∧
      t.vmas.count = 1 ∧ usedCount t.vmas = 2 := by
    have some' : (afterCalls 0 200 emptySpace [.mmap 0x40000000 0x3000 3 0, .munmap 0x40001000 0x1000]).map
        (fun t => (t.vmas.count, usedCount t.vmas)) = some (1, 2) := by
      decide +kernel
    obtain ⟨t, run, counts⟩ := Option.map_eq_some_iff.mp some'
    rw [Prod.mk.injEq] at counts
    exact ⟨t, run, counts⟩
  obtain ⟨t, run, count, used⟩ := run
  refine ⟨t, run_afterCalls .start run, unmapped_emptySpace, fun tidy => ?_⟩
  have := tidy.counted
  rw [count, used] at this
  cases this

end SwiftBSD.Proof.User
