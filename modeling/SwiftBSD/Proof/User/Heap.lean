import SwiftBSD.User.Exec
import SwiftBSD.Proof.User.Writable

namespace SwiftBSD.Proof.User
open Lib SwiftBSD.Mm SwiftBSD.Sched SwiftBSD.User SwiftBSD.Proof.Mm SwiftBSD.Proof.Sched

variable {σ : Type} {m s t u : Machine} {n k g h : Nat} {first v v' page cr3 pagePml4 : UInt64} {tr : Translation}

/-- `n` pages from `first` on, all in the low half. -/
structure Pages (first : UInt64) (n : Nat) : Prop where
  aligned : first.toNat % 4096 = 0
  low : first.toNat + 4096 * n ≤ 2 ^ 47

def InPages (first : UInt64) (n : Nat) (v : UInt64) : Prop := first.toNat ≤ v.toNat ∧ v.toNat < first.toNat + 4096 * n

theorem Pages.toNat (pages : Pages first n) (small : k ≤ n) : (first + 4096 * UInt64.ofNat k).toNat = first.toNat + 4096 * k := by
  have low := pages.low
  have count : (4096 * UInt64.ofNat k).toNat = 4096 * k := by
    rw [UInt64.toNat_mul, UInt64.toNat_ofNat']
    change 4096 * (k % 2 ^ 64) % 2 ^ 64 = 4096 * k
    omega
  rw [UInt64.toNat_add, count]
  omega

theorem Pages.mask (pages : Pages first n) (small : k ≤ n) :
    first + 4096 * UInt64.ofNat k &&& pageMask = first + 4096 * UInt64.ofNat k := by
  have aligned := pages.aligned
  apply UInt64.toNat_inj.mp
  rw [toNat_pageMask, pages.toNat small]
  omega

theorem canonical_iff : canonical v = true ↔ v.toNat < 2 ^ 47 ∨ 2 ^ 64 - 2 ^ 47 ≤ v.toNat := by
  unfold canonical
  rw [Bool.or_eq_true, decide_eq_true_iff, decide_eq_true_iff, UInt64.lt_iff_toNat_lt, UInt64.le_iff_toNat_le]
  exact Iff.rfl

theorem Pages.samePage (pages : Pages first n) (small : k < n) (can : canonical v = true) :
    SamePage (first + 4096 * UInt64.ofNat k) v ↔ v.toNat / 4096 = first.toNat / 4096 + k := by
  have low := pages.low
  have aligned := pages.aligned
  have value := pages.toNat small.le
  constructor
  · intro same
    have half : index 3 v = index 3 (first + 4096 * UInt64.ofNat k) := by
      have route := same.1
      simp only [routeFrom, List.cons.injEq] at route
      exact route.1
    have lowPage : (first + 4096 * UInt64.ofNat k).toNat < 2 ^ 47 := by omega
    have lowIndex := index_three_low lowPage
    have lowV : v.toNat < 2 ^ 47 := by
      rcases canonical_iff.mp can with low | high
      · exact low
      · rw [← half, index_three] at lowIndex
        have := v.toNat_lt
        omega
    have equal := page_eq lowV lowPage same.1 same.2
    omega
  · intro same
    exact samePage_of_page (by omega)

/-- `k` pages from `first` on have been given frames. -/
structure GrownPages (s u : Machine) (first : UInt64) (k : Nat) : Prop where
  zero : k = 0 → u = s
  tables : FullTables u s.cr3
  register : u.cr3 = s.cr3
  grows : ∀ h, s.bitmap h = true → u.bitmap h = true
  card : (freeFrames s).card ≤ (freeFrames u).card + 4 * k
  inside : ∀ v, InPages first k v → translate u.mem s.cr3 v ≠ none
  outside : ∀ v, canonical v = true → ¬InPages first k v →
    (translate u.mem s.cr3 v).map Translation.access = (translate s.mem s.cr3 v).map Translation.access
  frames : ∀ h, s.bitmap h = true → ¬IsTable s.mem s.cr3 h → u.mem h = s.mem h ∧ ¬IsTable u.mem s.cr3 h
  start : 0 < k → ∃ g, s.bitmap g = false ∧ (∀ i < g, s.bitmap i = true) ∧ u.mem g = s.mem g ∧ u.bitmap g = true ∧
    ¬IsTable u.mem s.cr3 g ∧ ∀ v, v.toNat / 4096 = first.toNat / 4096 → ∃ tr, translate u.mem s.cr3 v = some tr ∧
      tr.phys = g * 4096 + v.toNat % 4096

theorem GrownPages.refl (tables : FullTables s s.cr3) (first : UInt64) : GrownPages s s first 0 where
  zero := fun _ => rfl
  tables := tables
  register := rfl
  grows := fun _ used => used
  card := by omega
  inside := fun v inside => by
    unfold InPages at inside
    omega
  outside := fun _ _ _ => rfl
  frames := fun _ _ notTable => ⟨rfl, notTable⟩
  start := fun positive => absurd positive (by decide)

theorem map_ne_none {α β : Type} {f : α → β} {x y : Option α} (same : x.map f = y.map f) : x ≠ none ↔ y ≠ none := by
  cases x <;> cases y <;> simp at same ⊢

theorem Pages.inPages_succ (pages : Pages first n) :
    InPages first (k+1) v ↔ InPages first k v ∨ v.toNat / 4096 = first.toNat / 4096 + k := by
  have aligned := pages.aligned
  unfold InPages
  omega

theorem Pages.canonical (pages : Pages first n) (small : k ≤ n) (inside : InPages first k v) : canonical v = true := by
  have low := pages.low
  unfold InPages at inside
  exact canonical_iff.mpr (.inl (by omega))

section Grow
variable {e : UInt64} (given : Given u t v g e)
include given

theorem given_frame (used : u.bitmap h = true) (notTable : ¬IsTable u.mem u.cr3 h) : t.mem h = u.mem h ∧ ¬IsTable t.mem u.cr3 h := by
  have noTable : ¬IsTable t.mem u.cr3 h := by
    intro table
    rcases given.adds h table with old | free
    · exact notTable old
    · rw [used] at free
      cases free
  refine ⟨given.same h ?_ fun on => noTable on.isTable, noTable⟩
  rintro rfl
  rw [given.free] at used
  cases used

theorem given_phys (page : v'.toNat / 4096 = v.toNat / 4096) : ∃ tr, translate t.mem u.cr3 v' = some tr ∧
    tr.phys = g * 4096 + v'.toNat % 4096 := by
  refine ⟨_, given.here v' (samePage_of_page page), ?_⟩
  change (leafAt 0 e v').phys = _
  rw [phys_leafAt, given.frame]

theorem GrownPages.step (before : GrownPages s u first k) (pages : Pages first n) (small : k < n)
    (here : v = first + 4096 * UInt64.ofNat k) (contents : t.mem g = u.mem g) : GrownPages s t first (k+1) := by
  have aligned := pages.aligned
  have value := pages.toNat small.le
  rw [← here] at value
  have register := before.register
  have same (w : UInt64) (can : canonical w = true) : SamePage v w ↔ w.toNat / 4096 = first.toNat / 4096 + k := by
    rw [here]
    exact pages.samePage small can
  have keep (h : Nat) (used : u.bitmap h = true) (notTable : ¬IsTable u.mem s.cr3 h) : t.mem h = u.mem h ∧ ¬IsTable t.mem s.cr3 h := by
    rw [← register] at notTable ⊢
    exact given_frame given used notTable
  have others (w : UInt64) (can : canonical w = true) (other : w.toNat / 4096 ≠ first.toNat / 4096 + k) :
      (translate t.mem s.cr3 w).map Translation.access = (translate u.mem s.cr3 w).map Translation.access := by
    rw [← register]
    exact given.others w fun page => other ((same w can).mp page)
  exact {
    zero := fun zero => absurd zero (by omega)
    tables := by rw [← register]; exact given.tables
    register := given.register.trans register
    grows := fun h used => given.grows h (before.grows h used)
    card := by
      have := given.card
      have := before.card
      omega
    inside := by
      intro w inside
      have can := pages.canonical small inside
      by_cases page : w.toNat / 4096 = first.toNat / 4096 + k
      · rw [← register, given.here w ((same w can).mpr page)]
        exact Option.some_ne_none _
      · rw [map_ne_none (others w can page)]
        exact before.inside w (((pages.inPages_succ).mp inside).resolve_right page)
    outside := by
      intro w can outside
      rw [pages.inPages_succ, not_or] at outside
      rw [others w can outside.2, before.outside w can outside.1]
    frames := by
      intro h used notTable
      obtain ⟨old, still⟩ := before.frames h used notTable
      obtain ⟨new, now⟩ := keep h (before.grows h used) still
      exact ⟨new.trans old, now⟩
    start := by
      intro _
      rcases Nat.eq_zero_or_pos k with zero | positive
      · obtain rfl := before.zero zero
        subst zero
        exact ⟨g, given.free, given.first, contents, given.taken, given.notTable, fun w page => given_phys given (by omega)⟩
      · obtain ⟨g', free, least, old, taken, notTable, page⟩ := before.start positive
        obtain ⟨new, now⟩ := keep g' taken notTable
        refine ⟨g', free, least, new.trans old, given.grows g' taken, now, fun w inFirst => ?_⟩
        have can : canonical w = true := pages.canonical (k := n) (Nat.le_refl _) (by unfold InPages; omega)
        obtain ⟨tr, at_, phys⟩ := page w inFirst
        have moved := others w can (by omega)
        rw [at_, Option.map_some] at moved
        obtain ⟨tr', at', access⟩ := Option.map_eq_some_iff.mp moved
        exact ⟨tr', at', (congrArg Access.phys access).trans phys⟩ }

end Grow

theorem growHeap_succeeds (tables : FullTables u u.cr3) (reserved : u.bitmap 0 = true) (enough : 4 ≤ (freeFrames u).card)
    (aligned : v &&& pageMask = v) : ∃ t g e, (growHeap v).run u = some (none, t) ∧ Given u t v g e ∧ t.mem g = u.mem g := by
  obtain ⟨a, u₁, alloc, nonzero⟩ := pageAlloc_succeeds reserved (by omega : 0 < (freeFrames u).card)
  obtain ⟨g, fresh, rfl, same⟩ := pageAlloc_fresh alloc nonzero
  obtain ⟨t, map⟩ := vmmMapInCr3_total u.cr3 v (addrOf g) heapFlags u₁
  have mapRun : (vmmMapInCr3 u.cr3 (v &&& pageMask) (addrOf g) heapFlags).run u₁ = some ((), t) := by
    rw [aligned]
    exact map
  obtain ⟨given, contents⟩ := fresh.given tables reserved enough mapRun
  refine ⟨t, g, _, ?_, given, by rw [contents, same]⟩
  unfold growHeap
  rw [run_bind_some alloc, if_neg nonzero]
  unfold vmmMap
  refine run_bind_eq_some.mpr ⟨(), t, ?_, rfl⟩
  rw [run_bind_some (x := get) rfl, fresh.register]
  exact map

theorem grow_run (tables : FullTables s s.cr3) (reserved : s.bitmap 0 = true) (pages : Pages first n)
    (enough : 4 * n ≤ (freeFrames s).card) :
    ∃ t, (searchM (fun k => growHeap (first + 4096 * .ofNat k)) 0 n).run s = some (none, t) ∧ GrownPages s t first n := by
  suffices done : ∃ t, (searchM (fun k => growHeap (first + 4096 * .ofNat k)) 0 n).run s = some (none, t) ∧ GrownPages s t first (0 + n) by
    rwa [Nat.zero_add] at done
  refine searchM_total (fun k u => GrownPages s u first k) (.refl tables first) ?_
  intro k u _ small before
  rw [Nat.zero_add] at small
  have card := before.card
  obtain ⟨t, g, e, run, given, contents⟩ := growHeap_succeeds (by rw [before.register]; exact before.tables)
    (before.grows 0 reserved) (by omega) (pages.mask small.le)
  exact ⟨t, run, before.step given pages small rfl contents⟩

/-- `k` pages from `first` on are not mapped any more. -/
structure ShrunkPages (s u : Machine) (first : UInt64) (k : Nat) : Prop where
  tables : FullTables u s.cr3
  register : u.cr3 = s.cr3
  isTable : ∀ h, IsTable u.mem s.cr3 h ↔ IsTable s.mem s.cr3 h
  inside : ∀ v, InPages first k v → translate u.mem s.cr3 v = none
  outside : ∀ v, canonical v = true → ¬InPages first k v → translate u.mem s.cr3 v = translate s.mem s.cr3 v
  frames : ∀ h, ¬IsTable s.mem s.cr3 h → u.mem h = s.mem h

theorem ShrunkPages.refl (tables : FullTables s s.cr3) (first : UInt64) : ShrunkPages s s first 0 where
  tables := tables
  register := rfl
  isTable := fun _ => Iff.rfl
  inside := fun v inside => by
    unfold InPages at inside
    omega
  outside := fun _ _ _ => rfl
  frames := fun _ _ => rfl

theorem ShrunkPages.step (before : ShrunkPages s u first k) (pages : Pages first n) (small : k < n)
    (unmapped : Mm.Unmapped u t (first + 4096 * UInt64.ofNat k)) : ShrunkPages s t first (k+1) := by
  have register := before.register
  have isTable (h : Nat) : IsTable t.mem s.cr3 h ↔ IsTable s.mem s.cr3 h := by
    rw [← register, unmapped.isTable, register, before.isTable]
  exact {
    tables := by rw [← register]; exact unmapped.tables
    register := unmapped.register.trans register
    isTable := isTable
    inside := by
      intro w inside
      have same := pages.samePage small (pages.canonical (k := k + 1) small inside)
      rw [← register]
      by_cases page : w.toNat / 4096 = first.toNat / 4096 + k
      · exact unmapped.here w (same.mpr page)
      · rw [unmapped.others w fun here => page (same.mp here), register]
        exact before.inside w ((pages.inPages_succ.mp inside).resolve_right page)
    outside := by
      intro w can outside
      rw [pages.inPages_succ, not_or] at outside
      rw [← register, unmapped.others w fun here => outside.2 ((pages.samePage small can).mp here), register,
        before.outside w can outside.1]
    frames := by
      intro h notTable
      rw [unmapped.frames h fun table => notTable (by rw [← before.isTable, ← register]; exact table), before.frames h notTable] }

/-- A page of the user that is mapped by an entry of its own. -/
def UserFrame (m : Machine) (v : UInt64) : Prop :=
  ∃ tr, translate m.mem m.cr3 v = some tr ∧ tr.level = 0 ∧ m.bitmap (tr.phys / 4096) = true ∧ ¬IsTable m.mem m.cr3 (tr.phys / 4096)

theorem shrink_run (tables : FullTables s s.cr3) (pages : Pages first n) (mapped : ∀ v, InPages first n v → UserFrame s v) :
    ∃ t, (forRange (fun k => vmmUnmap s.cr3 (first + 4096 * .ofNat k)) 0 n).run s = some ((), t) ∧ ShrunkPages s t first n := by
  suffices done : ∃ t, (forRange (fun k => vmmUnmap s.cr3 (first + 4096 * .ofNat k)) 0 n).run s = some ((), t) ∧
      ShrunkPages s t first (0 + n) by
    rwa [Nat.zero_add] at done
  refine forRange_succeeds (fun k u => ShrunkPages s u first k) (.refl tables first) ?_
  intro k u _ small before
  rw [Nat.zero_add] at small
  have aligned := pages.aligned
  have value := pages.toNat small.le
  have register := before.register
  have inside : InPages first n (first + 4096 * .ofNat k) := by
    unfold InPages
    omega
  obtain ⟨tr, at_, level, -, notTable⟩ := mapped _ inside
  rw [← before.outside _ (pages.canonical (Nat.le_refl _) inside) (by unfold InPages; omega), ← register] at at_
  rw [← before.isTable, ← register] at notTable
  obtain ⟨t, run, unmapped⟩ := FullTables.unmap (by rw [register]; exact before.tables) at_ level notTable
  rw [register] at run
  exact ⟨t, run, before.step pages small unmapped⟩

def Cleared (mem mem' : Mem) : Prop := ∀ f i, mem' f i = mem f i ∨ mem' f i = 0

theorem Cleared.translateFrom {mem mem' : Mem} (cleared : Cleared mem mem') (d f : Nat) :
    translateFrom mem' v d f = translateFrom mem v d f ∨ translateFrom mem' v d f = none := by
  induction d generalizing f with
  | zero =>
      rw [translateFrom_zero, translateFrom_zero]
      rcases cleared f (index 0 v) with same | zero
      · rw [same]
        exact .inl rfl
      · rw [zero]
        exact .inr rfl
  | succ d ih =>
      rw [translateFrom_succ, translateFrom_succ]
      rcases cleared f (index (d+1) v) with same | zero
      · rw [same]
        split
        · exact .inl rfl
        split
        · exact .inl rfl
        · rcases ih (tableOf (mem f (index (d+1) v))) with same | none
          · rw [same]
            exact .inl rfl
          · rw [none]
            exact .inr rfl
      · rw [zero]
        exact .inr rfl

theorem Cleared.absent {mem mem' : Mem} (cleared : Cleared mem mem') (absent : translate mem cr3 v = none) :
    translate mem' cr3 v = none := by
  unfold SwiftBSD.Mm.translate at absent ⊢
  rcases cleared.translateFrom 3 (tableOf cr3) with same | none
  · rw [same, absent]
  · exact none

theorem Cleared.trans {mem mem' mem'' : Mem} (first : Cleared mem mem') (second : Cleared mem' mem'') : Cleared mem mem'' := by
  intro f i
  rcases second f i with same | zero
  · rw [same]
    exact first f i
  · exact .inr zero

theorem cleared_unmap (run : (vmmUnmap pagePml4 v).run s = some ((), t)) : Cleared s.mem t.mem ∧ t.cr3 = s.cr3 := by
  have done := vmmUnmap_run run
  split at done
  · rw [done]
    exact ⟨fun _ _ => .inl rfl, rfl⟩
  · next pt _ =>
      obtain ⟨u, freed, rfl⟩ := done
      refine ⟨fun f i => ?_, freed.register⟩
      by_cases here : f = frameOf pt ∧ i = index 0 v
      · right
        rw [here.1, here.2, setEntry_same, Function.update_self]
      · left
        rw [setEntry_entry here, freed.mem]

theorem cleared_shrink (run : (forRange (fun k => vmmUnmap pagePml4 (first + 4096 * .ofNat k)) 0 n).run s = some ((), t)) :
    Cleared s.mem t.mem ∧ t.cr3 = s.cr3 := by
  refine forRange_run (fun _ (u : Machine) => Cleared s.mem u.mem ∧ u.cr3 = s.cr3) ⟨fun _ _ => .inl rfl, rfl⟩ ?_ run
  rintro k u v - - ⟨cleared, register⟩ step
  obtain ⟨cleared', register'⟩ := cleared_unmap step
  exact ⟨cleared.trans cleared', register'.trans register⟩

def roundUpPage (x : Nat) : Nat := (x + 4095) / 4096 * 4096

theorem roundUpPage_spec (x : Nat) : x ≤ roundUpPage x ∧ roundUpPage x < x + 4096 ∧ roundUpPage x % 4096 = 0 := by
  unfold roundUpPage
  omega

theorem lt_roundUpPage {x y : Nat} : x < roundUpPage y ↔ x / 4096 * 4096 < y := by
  unfold roundUpPage
  omega

theorem roundUpPage_aligned {x : Nat} (aligned : x % 4096 = 0) : roundUpPage x = x := by
  unfold roundUpPage
  omega

theorem roundUpPage_max {x y : Nat} (larger : x / 4096 * 4096 < y) : roundUpPage (max x y) = roundUpPage y := by
  unfold roundUpPage
  omega

/-- The heap pages of a process are those of `[heap_start, heap_break)`. -/
structure HeapMapped (s : Kernel σ) : Prop where
  aligned : s.current.heapStart.toNat % 4096 = 0
  order : s.current.heapStart ≤ s.current.heapBreak
  low : s.current.heapBreak.toNat ≤ 2 ^ 46
  mapped : ∀ v, s.current.heapStart ≤ v → v.toNat < roundUpPage s.current.heapBreak.toNat → UserFrame s.machine v

structure HeapMoved (s t : Kernel σ) (a : UInt64) : Prop where
  pages : ∀ v, s.current.heapStart ≤ v → v.toNat < roundUpPage (max s.current.heapBreak.toNat a.toNat) → v.toNat < 2 ^ 47 →
    (translate t.machine.mem t.machine.cr3 v ≠ none ↔ v.toNat / 4096 * 4096 < a.toNat)
  bytes : ∀ v, s.current.heapStart ≤ v → v < s.current.heapBreak → v < a →
    viewOf t.machine.mem t.machine.cr3 v = viewOf s.machine.mem s.machine.cr3 v
  others : ∀ v, canonical v = true → v < s.current.heapStart ∨ roundUpPage (max s.current.heapBreak.toNat a.toNat) ≤ v.toNat →
    (translate t.machine.mem t.machine.cr3 v).map Translation.access =
      (translate s.machine.mem s.machine.cr3 v).map Translation.access

def BrkMeets (s : Kernel σ) (pagePml4 a : UInt64) : Prop :=
  ∀ r t, (scBrk pagePml4 a).run s = some (r, t) → (r = a → HeapMoved s t a) ∧ (r = mapFailed → t = s)

/-- The first free frame holds what is in the last page of the heap. -/
def LastPageKept (s : Kernel σ) (a : UInt64) : Prop :=
  ∀ g, s.machine.bitmap g = false → (∀ i < g, s.machine.bitmap i = true) → ∀ v : UInt64,
    s.current.heapBreak.toNat / 4096 * 4096 ≤ v.toNat → v < s.current.heapBreak → v < a →
    byteAt s.machine.mem (g * 4096 + v.toNat % 4096) = viewOf s.machine.mem s.machine.cr3 v

/-- The old end of the heap is at the start of a page, and the new one does not wrap around when it is rounded up; or the
last page does not change when its frame does. -/
def BrkFits (s : Kernel σ) (a : UInt64) : Prop :=
  a < s.current.heapStart ∨ a.toNat + 4095 < 2 ^ 64 ∧
    (s.current.heapBreak.toNat % 4096 = 0 ∨ s.current.heapBreak.toNat / 4096 * 4096 < a.toNat ∧ LastPageKept s a)

section Brk
variable {s : Kernel σ} {a : UInt64} {m' : Machine}

theorem toNat_newPage (a : UInt64) : (a + 0xFFF &&& pageMask).toNat = 4096 * ((a.toNat + 4095) % 2 ^ 64 / 4096) := by
  rw [toNat_pageMask, UInt64.toNat_add]
  rfl

def movedTo (s : Kernel σ) (m : Machine) (a : UInt64) : Kernel σ :=
  ({ s with machine := m } : Kernel σ).setProc s.currentIdx { s.current with heapBreak := a }

theorem scBrk_below (nonzero : a ≠ 0) (below : a < s.current.heapStart) : (scBrk pagePml4 a).run s = some (mapFailed, s) := by
  unfold scBrk
  rw [run_bind_some (x := get) rfl, if_neg nonzero, if_pos below]
  rfl

theorem scBrk_moves (nonzero : a ≠ 0) (above : ¬a < s.current.heapStart)
    (run : (movePages pagePml4 (s.current.heapBreak &&& pageMask) (a + 0xFFF &&& pageMask)).run s.machine = some (none, m')) :
    (scBrk pagePml4 a).run s = some (a, movedTo s m' a) := by
  unfold scBrk
  rw [run_bind_some (x := get) rfl, if_neg nonzero, if_neg above]
  dsimp only
  rw [run_bind_some (run_onMachine run)]
  rfl

theorem viewOf_some {mem : Mem} (here : translate mem cr3 v = some tr) : viewOf mem cr3 v = byteAt mem tr.phys := by
  unfold viewOf
  rw [here]

theorem viewOf_access {mem mem' : Mem} (here : translate mem cr3 v = some tr)
    (access : (translate mem' cr3 v).map Translation.access = (translate mem cr3 v).map Translation.access)
    (same : mem' (tr.phys / 4096) = mem (tr.phys / 4096)) : viewOf mem' cr3 v = viewOf mem cr3 v := by
  rw [here, Option.map_some] at access
  obtain ⟨tr', here', equal⟩ := Option.map_eq_some_iff.mp access
  have phys : tr'.phys = tr.phys := congrArg Access.phys equal
  rw [viewOf_some here', viewOf_some here, phys]
  unfold byteAt
  rw [same]

variable (ok : HeapMapped s)
include ok

section Grow
variable (larger : s.current.heapBreak.toNat / 4096 * 4096 < a.toNat)
  (grown : GrownPages s.machine m' (s.current.heapBreak &&& pageMask)
    ((roundUpPage a.toNat - s.current.heapBreak.toNat / 4096 * 4096) / 4096))
include larger grown

omit larger in
theorem grown_bytes (above : s.current.heapStart ≤ v) (below : v.toNat < s.current.heapBreak.toNat / 4096 * 4096) :
    viewOf m'.mem s.machine.cr3 v = viewOf s.machine.mem s.machine.cr3 v := by
  have low := ok.low
  have top := roundUpPage_spec s.current.heapBreak.toNat
  obtain ⟨tr, here, -, used, notTable⟩ := ok.mapped v above (by omega)
  refine viewOf_access here (grown.outside v (canonical_iff.mpr (.inl (by omega))) ?_) (grown.frames _ used notTable).1
  unfold InPages
  rw [toNat_pageMask]
  omega

omit ok in
theorem grown_start : ∃ g, s.machine.bitmap g = false ∧ (∀ i < g, s.machine.bitmap i = true) ∧
    ∀ v : UInt64, s.current.heapBreak.toNat / 4096 * 4096 ≤ v.toNat → v < s.current.heapBreak →
      viewOf m'.mem s.machine.cr3 v = byteAt s.machine.mem (g * 4096 + v.toNat % 4096) := by
  have top := roundUpPage_spec a.toNat
  have positive : 0 < (roundUpPage a.toNat - s.current.heapBreak.toNat / 4096 * 4096) / 4096 := by omega
  obtain ⟨g, free, first, contents, -, -, page⟩ := grown.start positive
  refine ⟨g, free, first, fun v above below => ?_⟩
  rw [UInt64.lt_iff_toNat_lt] at below
  obtain ⟨tr, here, phys⟩ := page v (by rw [toNat_pageMask]; omega)
  rw [viewOf_some here, phys]
  unfold byteAt
  rw [show (g * 4096 + v.toNat % 4096) / 4096 = g by omega, contents]

theorem grown_pages (above : s.current.heapStart ≤ v)
    (below : v.toNat < roundUpPage (max s.current.heapBreak.toNat a.toNat)) :
    translate m'.mem s.machine.cr3 v ≠ none ↔ v.toNat / 4096 * 4096 < a.toNat := by
  have low := ok.low
  rw [roundUpPage_max larger] at below
  have inside := lt_roundUpPage.mp below
  have top := roundUpPage_spec a.toNat
  refine ⟨fun _ => inside, fun _ => ?_⟩
  by_cases page : InPages (s.current.heapBreak &&& pageMask)
      ((roundUpPage a.toNat - s.current.heapBreak.toNat / 4096 * 4096) / 4096) v
  · exact grown.inside v page
  · have smaller : v.toNat < s.current.heapBreak.toNat / 4096 * 4096 := by
      unfold InPages at page
      rw [toNat_pageMask] at page
      omega
    have top' := roundUpPage_spec s.current.heapBreak.toNat
    obtain ⟨tr, here, -⟩ := ok.mapped v above (by omega)
    rw [map_ne_none (grown.outside v (canonical_iff.mpr (.inl (by omega))) page), here]
    exact Option.some_ne_none _

theorem grown_moved (kept : s.current.heapBreak.toNat % 4096 = 0 ∨ LastPageKept s a) : HeapMoved s (movedTo s m' a) a where
  pages := by
    intro v above below _
    change translate m'.mem m'.cr3 v ≠ none ↔ _
    rw [grown.register]
    exact grown_pages ok larger grown above below
  bytes := by
    intro v above below smaller
    change viewOf m'.mem m'.cr3 v = _
    rw [grown.register]
    by_cases last : v.toNat < s.current.heapBreak.toNat / 4096 * 4096
    · exact grown_bytes ok grown above last
    rcases kept with aligned | kept
    · rw [UInt64.lt_iff_toNat_lt] at below
      omega
    · obtain ⟨g, free, first, page⟩ := grown_start larger grown
      rw [page v (by omega) below, kept g free first v (by omega) below smaller]
  others := by
    intro v can outside
    have aligned := ok.aligned
    have order := ok.order
    rw [UInt64.le_iff_toNat_le] at order
    change (translate m'.mem m'.cr3 v).map _ = _
    rw [grown.register]
    refine grown.outside v can fun inside => ?_
    unfold InPages at inside
    rw [toNat_pageMask] at inside
    rw [UInt64.lt_iff_toNat_lt, roundUpPage_max larger] at outside
    have top := roundUpPage_spec a.toNat
    omega

end Grow

section Shrink
variable (wraps : a.toNat + 4095 < 2 ^ 64) (above : s.current.heapStart ≤ a)
  (smaller : a.toNat ≤ s.current.heapBreak.toNat / 4096 * 4096)
  (shrunk : ShrunkPages s.machine m' (a + 0xFFF &&& pageMask)
    ((s.current.heapBreak.toNat / 4096 * 4096 - roundUpPage a.toNat) / 4096))
include wraps smaller shrunk

omit ok shrunk in
theorem shrunk_inPages : InPages (a + 0xFFF &&& pageMask)
    ((s.current.heapBreak.toNat / 4096 * 4096 - roundUpPage a.toNat) / 4096) v ↔
    roundUpPage a.toNat ≤ v.toNat ∧ v.toNat < s.current.heapBreak.toNat / 4096 * 4096 := by
  have value : (a + 0xFFF &&& pageMask).toNat = roundUpPage a.toNat := by
    rw [toNat_newPage, Nat.mod_eq_of_lt wraps]
    exact Nat.mul_comm _ _
  have top := roundUpPage_spec a.toNat
  unfold InPages
  rw [value]
  omega

omit wraps smaller in
theorem shrunk_bytes (above : s.current.heapStart ≤ v) (below : v.toNat < roundUpPage s.current.heapBreak.toNat)
    (outside : ¬InPages (a + 0xFFF &&& pageMask) ((s.current.heapBreak.toNat / 4096 * 4096 - roundUpPage a.toNat) / 4096) v) :
    translate m'.mem s.machine.cr3 v ≠ none ∧ viewOf m'.mem s.machine.cr3 v = viewOf s.machine.mem s.machine.cr3 v := by
  have low := ok.low
  have top := roundUpPage_spec s.current.heapBreak.toNat
  obtain ⟨tr, here, -, -, notTable⟩ := ok.mapped v above below
  have same := shrunk.outside v (canonical_iff.mpr (.inl (by omega))) outside
  refine ⟨by rw [same, here]; exact Option.some_ne_none _, ?_⟩
  exact viewOf_access here (by rw [same]) (shrunk.frames _ notTable)

include above

theorem shrunk_moved (aligned : s.current.heapBreak.toNat % 4096 = 0) : HeapMoved s (movedTo s m' a) a := by
  have endPage : s.current.heapBreak.toNat / 4096 * 4096 = s.current.heapBreak.toNat := by omega
  have larger : max s.current.heapBreak.toNat a.toNat = s.current.heapBreak.toNat := by omega
  have whole := roundUpPage_aligned aligned
  have inPages {v : UInt64} := shrunk_inPages (v := v) wraps smaller
  rw [UInt64.le_iff_toNat_le] at above
  have top := roundUpPage_spec a.toNat
  have register : (movedTo s m' a).machine.cr3 = s.machine.cr3 := shrunk.register
  refine ⟨fun v from_ below _ => ?_, fun v from_ below under => ?_, fun v can outside => ?_⟩
  · rw [register]
    rw [larger, whole] at below
    rw [← lt_roundUpPage]
    by_cases inside : roundUpPage a.toNat ≤ v.toNat
    · have gone := shrunk.inside v (inPages.mpr ⟨inside, by omega⟩)
      exact ⟨fun present => (present gone).elim, fun less => by omega⟩
    · refine ⟨fun _ => by omega, fun _ => ?_⟩
      exact (shrunk_bytes ok shrunk from_ (by rw [whole]; exact below) fun page => inside (inPages.mp page).1).1
  · rw [register]
    rw [UInt64.lt_iff_toNat_lt] at below under
    refine (shrunk_bytes ok shrunk from_ (by rw [whole]; exact below) fun page => ?_).2
    have := (inPages.mp page).1
    omega
  · rw [register]
    rw [larger, whole, UInt64.lt_iff_toNat_lt] at outside
    refine congrArg _ (shrunk.outside v can fun page => ?_)
    have := inPages.mp page
    omega

omit above in
theorem shrunk_last (unaligned : s.current.heapBreak.toNat % 4096 ≠ 0) : ¬HeapMoved s (movedTo s m' a) a := by
  intro moved
  have order := ok.order
  have aligned := ok.aligned
  have low := ok.low
  have top := roundUpPage_spec s.current.heapBreak.toNat
  have value := toNat_pageMask (e := s.current.heapBreak)
  rw [UInt64.le_iff_toNat_le] at order
  have above' : s.current.heapStart ≤ s.current.heapBreak &&& pageMask := by
    rw [UInt64.le_iff_toNat_le]
    omega
  have below : (s.current.heapBreak &&& pageMask).toNat < roundUpPage s.current.heapBreak.toNat := by omega
  have larger : max s.current.heapBreak.toNat a.toNat = s.current.heapBreak.toNat := by omega
  have stays := (shrunk_bytes ok shrunk above' below fun page => by
    have := ((shrunk_inPages wraps smaller).mp page).2
    omega).1
  have register : (movedTo s m' a).machine.cr3 = s.machine.cr3 := shrunk.register
  have inside := (moved.pages _ above' (by rw [larger]; exact below) (by omega)).mp (by rw [register]; exact stays)
  omega

end Shrink

section Main
variable (tables : FullTables s.machine s.machine.cr3) (reserved : s.machine.bitmap 0 = true) (own : s.machine.cr3 = pagePml4)
  (enough : 4 * pageCount (s.current.heapBreak &&& pageMask) (a + 0xFFF &&& pageMask) ≤ (freeFrames s.machine).card)

omit ok in
theorem toNat_newPage_roundUp (wraps : a.toNat + 4095 < 2 ^ 64) : (a + 0xFFF &&& pageMask).toNat = roundUpPage a.toNat := by
  rw [toNat_newPage, Nat.mod_eq_of_lt wraps]
  exact Nat.mul_comm _ _

omit ok in
theorem card_freeFrames (m : Machine) : (freeFrames m).card ≤ 131072 := by
  have bounded := m.bounded
  have count := Finset.card_filter_le (Finset.range m.lastPhysPage) fun i => m.bitmap i = false
  rw [Finset.card_range] at count
  exact count.trans bounded

include tables reserved enough in
theorem brk_grows (wraps : a.toNat + 4095 < 2 ^ 64) (larger : s.current.heapBreak.toNat / 4096 * 4096 < a.toNat) :
    ∃ m', (movePages pagePml4 (s.current.heapBreak &&& pageMask) (a + 0xFFF &&& pageMask)).run s.machine = some (none, m') ∧
      GrownPages s.machine m' (s.current.heapBreak &&& pageMask)
        ((roundUpPage a.toNat - s.current.heapBreak.toNat / 4096 * 4096) / 4096) := by
  have old := toNat_pageMask (e := s.current.heapBreak)
  have new := toNat_newPage_roundUp wraps
  have top := roundUpPage_spec a.toNat
  have low := ok.low
  have count : pageCount (s.current.heapBreak &&& pageMask) (a + 0xFFF &&& pageMask) =
      (roundUpPage a.toNat - s.current.heapBreak.toNat / 4096 * 4096) / 4096 := by
    unfold pageCount
    omega
  rw [count] at enough
  have card := card_freeFrames s.machine
  have pages : Pages (s.current.heapBreak &&& pageMask)
      ((roundUpPage a.toNat - s.current.heapBreak.toNat / 4096 * 4096) / 4096) := ⟨by omega, by omega⟩
  obtain ⟨m', run, grown⟩ := grow_run tables reserved pages enough
  refine ⟨m', ?_, grown⟩
  unfold movePages growPages
  rw [if_pos (by rw [UInt64.lt_iff_toNat_lt]; omega), count]
  exact run

include tables own in
theorem brk_shrinks (wraps : a.toNat + 4095 < 2 ^ 64) (above : s.current.heapStart ≤ a)
    (smaller : a.toNat ≤ s.current.heapBreak.toNat / 4096 * 4096) :
    ∃ m', (movePages pagePml4 (s.current.heapBreak &&& pageMask) (a + 0xFFF &&& pageMask)).run s.machine = some (none, m') ∧
      ShrunkPages s.machine m' (a + 0xFFF &&& pageMask)
        ((s.current.heapBreak.toNat / 4096 * 4096 - roundUpPage a.toNat) / 4096) := by
  have old := toNat_pageMask (e := s.current.heapBreak)
  have new := toNat_newPage_roundUp wraps
  have top := roundUpPage_spec a.toNat
  have top' := roundUpPage_spec s.current.heapBreak.toNat
  have low := ok.low
  rw [UInt64.le_iff_toNat_le] at above
  have count : pageCount (a + 0xFFF &&& pageMask) (s.current.heapBreak &&& pageMask) =
      (s.current.heapBreak.toNat / 4096 * 4096 - roundUpPage a.toNat) / 4096 := by
    unfold pageCount
    omega
  have pages : Pages (a + 0xFFF &&& pageMask) ((s.current.heapBreak.toNat / 4096 * 4096 - roundUpPage a.toNat) / 4096) :=
    ⟨by omega, by omega⟩
  have mapped (v : UInt64) (inside : InPages (a + 0xFFF &&& pageMask)
      ((s.current.heapBreak.toNat / 4096 * 4096 - roundUpPage a.toNat) / 4096) v) : UserFrame s.machine v := by
    obtain ⟨lower, upper⟩ := (shrunk_inPages wraps smaller).mp inside
    exact ok.mapped v (by rw [UInt64.le_iff_toNat_le]; omega) (by omega)
  obtain ⟨m', run, shrunk⟩ := shrink_run tables pages mapped
  unfold movePages shrinkPages
  rw [if_neg (by rw [UInt64.lt_iff_toNat_lt]; omega), ← own]
  by_cases less : roundUpPage a.toNat < s.current.heapBreak.toNat / 4096 * 4096
  · refine ⟨m', ?_, shrunk⟩
    rw [if_pos (by rw [UInt64.lt_iff_toNat_lt]; omega), count]
    exact run_bind_eq_some.mpr ⟨(), m', run, rfl⟩
  · have zero : (s.current.heapBreak.toNat / 4096 * 4096 - roundUpPage a.toNat) / 4096 = 0 := by omega
    refine ⟨s.machine, ?_, by rw [zero]; exact .refl tables _⟩
    rw [if_neg (by rw [UInt64.lt_iff_toNat_lt]; omega)]
    rfl

omit ok in
theorem brk_wraps (wraps : 2 ^ 64 ≤ a.toNat + 4095) :
    ∃ m', (movePages pagePml4 (s.current.heapBreak &&& pageMask) (a + 0xFFF &&& pageMask)).run s.machine = some (none, m') ∧
      Cleared s.machine.mem m'.mem ∧ m'.cr3 = s.machine.cr3 := by
  have bound := a.toNat_lt
  have new : (a + 0xFFF &&& pageMask).toNat = 0 := by
    rw [toNat_newPage]
    omega
  have total (k : Nat) (m : Machine) :
      ∃ t, (vmmUnmap pagePml4 ((a + 0xFFF &&& pageMask) + 4096 * .ofNat k)).run m = some ((), t) := vmmUnmap_total _ _ _
  obtain ⟨m', run⟩ := forRange_total total 0 (pageCount (a + 0xFFF &&& pageMask) (s.current.heapBreak &&& pageMask)) s.machine
  have cleared := cleared_shrink run
  unfold movePages shrinkPages
  rw [if_neg (by rw [UInt64.lt_iff_toNat_lt]; omega)]
  split
  · refine ⟨m', ?_, cleared⟩
    rw [run_bind_some run]
    rfl
  · exact ⟨s.machine, rfl, fun _ _ => .inl rfl, rfl⟩

omit ok in
theorem brkMeets_moves (nonzero : a ≠ 0) (above : ¬a < s.current.heapStart)
    (run : (movePages pagePml4 (s.current.heapBreak &&& pageMask) (a + 0xFFF &&& pageMask)).run s.machine = some (none, m')) :
    BrkMeets s pagePml4 a ↔ HeapMoved s (movedTo s m' a) a ∧ (a = mapFailed → movedTo s m' a = s) := by
  have whole := scBrk_moves nonzero above run
  constructor
  · intro meets
    obtain ⟨moved, failed⟩ := meets a _ whole
    exact ⟨moved rfl, failed⟩
  · rintro ⟨moved, failed⟩ r t other
    rw [whole] at other
    cases other
    exact ⟨fun _ => moved, failed⟩

include tables reserved own enough in
/-- The call is right if and only if the old end of the heap is at the start of a page. -/
theorem brk_meets_iff (nonzero : a ≠ 0)
    (behind : 2 ^ 64 ≤ a.toNat + 4095 →
      translate s.machine.mem s.machine.cr3 (.ofNat (roundUpPage s.current.heapBreak.toNat)) = none) :
    BrkMeets s pagePml4 a ↔ BrkFits s a := by
  by_cases below : a < s.current.heapStart
  · refine ⟨fun _ => .inl below, fun _ r t run => ?_⟩
    rw [scBrk_below nonzero below] at run
    cases run
    refine ⟨?_, fun _ => rfl⟩
    rintro rfl
    rw [UInt64.lt_iff_toNat_lt] at below
    have := s.current.heapStart.toNat_lt
    have max : mapFailed.toNat = 2 ^ 64 - 1 := rfl
    omega
  have above : s.current.heapStart ≤ a := UInt64.not_lt.mp below
  have fits : BrkFits s a ↔ a.toNat + 4095 < 2 ^ 64 ∧ (s.current.heapBreak.toNat % 4096 = 0 ∨
      s.current.heapBreak.toNat / 4096 * 4096 < a.toNat ∧ LastPageKept s a) := or_iff_right below
  rw [fits]
  by_cases wraps : a.toNat + 4095 < 2 ^ 64
  swap
  · obtain ⟨m', run, cleared, register⟩ := @brk_wraps _ pagePml4 s _ (Nat.not_lt.mp wraps)
    rw [brkMeets_moves nonzero below run]
    refine ⟨fun both => ?_, fun both => (wraps both.1).elim⟩
    have low := ok.low
    have order := ok.order
    have top := roundUpPage_spec s.current.heapBreak.toNat
    have top' := roundUpPage_spec (max s.current.heapBreak.toNat a.toNat)
    have value : (UInt64.ofNat (roundUpPage s.current.heapBreak.toNat)).toNat = roundUpPage s.current.heapBreak.toNat := by
      rw [UInt64.toNat_ofNat']
      omega
    rw [UInt64.le_iff_toNat_le] at order
    have present := (both.1.pages (.ofNat (roundUpPage s.current.heapBreak.toNat)) (by rw [UInt64.le_iff_toNat_le]; omega)
      (by omega) (by omega)).mpr (by omega)
    refine (present ?_).elim
    change translate m'.mem m'.cr3 _ = none
    rw [register]
    exact cleared.absent (behind (Nat.not_lt.mp wraps))
  have notFailed : a ≠ mapFailed := by
    rintro rfl
    exact absurd wraps (by decide)
  by_cases larger : s.current.heapBreak.toNat / 4096 * 4096 < a.toNat
  · obtain ⟨m', run, grown⟩ := @brk_grows _ pagePml4 s _ ok tables reserved enough wraps larger
    rw [brkMeets_moves nonzero below run]
    constructor
    · rintro ⟨moved, -⟩
      refine ⟨wraps, .inr ⟨larger, fun g free first v last under smaller => ?_⟩⟩
      obtain ⟨g', free', first', page⟩ := grown_start larger grown
      have same : g' = g := by
        by_contra differ
        rcases Nat.lt_or_gt_of_ne differ with less | less
        · rw [first g' less] at free'
          cases free'
        · rw [first' g less] at free
          cases free
      subst same
      have order := ok.order
      have aligned := ok.aligned
      rw [UInt64.le_iff_toNat_le] at order
      have bytes := moved.bytes v (by rw [UInt64.le_iff_toNat_le]; omega) under smaller
      change viewOf m'.mem m'.cr3 v = _ at bytes
      rw [grown.register, page v last under] at bytes
      exact bytes
    · rintro ⟨-, kept⟩
      exact ⟨grown_moved ok larger grown (kept.imp_right And.right), fun failed => (notFailed failed).elim⟩
  · obtain ⟨m', run, shrunk⟩ := brk_shrinks ok tables own wraps above (Nat.not_lt.mp larger)
    rw [brkMeets_moves nonzero below run]
    constructor
    · rintro ⟨moved, -⟩
      refine ⟨wraps, .inl ?_⟩
      by_contra unaligned
      exact shrunk_last ok wraps (Nat.not_lt.mp larger) shrunk unaligned moved
    · rintro ⟨-, aligned | kept⟩
      · exact ⟨shrunk_moved ok wraps above (Nat.not_lt.mp larger) shrunk aligned, fun failed => (notFailed failed).elim⟩
      · exact (larger kept.1).elim

end Main

end Brk

theorem given_userFrame {e : UInt64} (given : Given u t v g e) (page : v'.toNat / 4096 = v.toNat / 4096) : UserFrame t v' := by
  refine ⟨_, by rw [given.register]; exact given.here v' (samePage_of_page page), rfl, ?_⟩
  have frame : (Translation.inHalf (decide (index 3 v < 256)) (leafAt 0 e v')).phys / 4096 = g := by
    change (leafAt 0 e v').phys / 4096 = g
    rw [frame_leafAt, given.frame]
  rw [frame, given.register]
  exact ⟨given.taken, given.notTable⟩

def emptyHeap : Kernel Fs.Disk :=
  { bootProcess with
    procs := Function.update bootProcess.procs 0 { bootProcess.procs 0 with heapStart := 0x10000000, heapBreak := 0x10000000 } }

theorem emptyHeap_mapped : HeapMapped emptyHeap where
  aligned := by decide
  order := by decide
  low := by decide
  mapped := by
    intro v above below
    rw [UInt64.le_iff_toNat_le] at above
    exact absurd below (Nat.not_lt.mpr above)

theorem brk_meets_page : BrkMeets emptyHeap (addrOf 272) 0x10001000 := by
  have count : pageCount (emptyHeap.current.heapBreak &&& pageMask) (0x10001000 + 0xFFF &&& pageMask) = 1 := by decide
  have enough : 4 * pageCount (emptyHeap.current.heapBreak &&& pageMask) (0x10001000 + 0xFFF &&& pageMask) ≤
      (freeFrames emptyHeap.machine).card := by
    rw [count]
    exact bootProcess_enough
  have meets := brk_meets_iff emptyHeap_mapped bootProcess_tables (by decide) rfl enough (by decide) fun wraps => absurd wraps (by decide)
  exact meets.mpr (.inr ⟨by decide, .inl (by decide)⟩)

/-- Half a page is asked for and given back: the page stays. -/
theorem half_page_stays : ∃ t, (scBrk (addrOf 272) 0x10000800).run emptyHeap = some (0x10000800, t) ∧ HeapMapped t ∧
    ¬BrkMeets t (addrOf 272) 0x10000000 := by
  obtain ⟨m, g, e, run, given, -⟩ := growHeap_succeeds (v := 0x10000000) bootProcess_tables (by decide) bootProcess_enough (by decide)
  have moves : (movePages (addrOf 272) (emptyHeap.current.heapBreak &&& pageMask) (0x10000800 + 0xFFF &&& pageMask)).run
      emptyHeap.machine = some (none, m) := by
    change (growHeap 0x10000000 >>= _).run bootProcess.machine = _
    rw [run_bind_some run]
    rfl
  have page (v : UInt64) (above : (0x10000000 : UInt64) ≤ v) (below : v.toNat < 0x10001000) : UserFrame m v := by
    rw [UInt64.le_iff_toNat_le] at above
    refine given_userFrame given ?_
    change 0x10000000 ≤ v.toNat at above
    change v.toNat / 4096 = 0x10000
    omega
  have start : (movedTo emptyHeap m 0x10000800).current.heapStart = 0x10000000 := rfl
  have stop : (movedTo emptyHeap m 0x10000800).current.heapBreak = 0x10000800 := rfl
  have top : roundUpPage (0x10000800 : UInt64).toNat = 0x10001000 := by decide
  have mapped : HeapMapped (movedTo emptyHeap m 0x10000800) := by
    refine ⟨by rw [start]; decide, by rw [start, stop]; decide, by rw [stop]; decide, fun v above below => ?_⟩
    rw [start] at above
    rw [stop, top] at below
    exact page v above below
  refine ⟨movedTo emptyHeap m 0x10000800, scBrk_moves (by decide) (by decide) moves, mapped, fun meets => ?_⟩
  have again : (movePages (addrOf 272) ((movedTo emptyHeap m 0x10000800).current.heapBreak &&& pageMask)
      (0x10000000 + 0xFFF &&& pageMask)).run (movedTo emptyHeap m 0x10000800).machine = some (none, m) := by
    rw [stop]
    unfold movePages
    rw [if_neg (by decide), if_neg (by decide)]
    rfl
  have moved := ((brkMeets_moves (by decide) (by rw [start]; decide) again).mp meets).1
  have gone := (moved.pages 0x10000000 (by rw [start]; decide) (by rw [stop]; decide) (by decide)).not
  obtain ⟨tr, here, -⟩ := page 0x10000000 (by decide) (by decide)
  have present : translate m.mem m.cr3 0x10000000 ≠ none := by
    rw [here]
    exact Option.some_ne_none _
  exact gone.mpr (by decide) present

end SwiftBSD.Proof.User
