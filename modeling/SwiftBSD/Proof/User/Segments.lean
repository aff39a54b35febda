import SwiftBSD.Proof.User.Loading

namespace SwiftBSD.Proof.User
open Lib SwiftBSD.Mm SwiftBSD.Sched SwiftBSD.User SwiftBSD.Proof.Mm SwiftBSD.Proof.Sched

variable {σ : Type} [Fs.BlockStore σ] {s : Machine} {x y z : Kernel σ} {image : UInt64 → UInt8} {p : Phdr} {cr3 v entry : UInt64} {i j q : Nat}
  {k : List Nat × Nat} {map map' : PageMap}

/-- Entry `i` of the program headers is a `PT_LOAD`. -/
def IsLoad (image : UInt64 → UInt8) (i : Nat) : Prop := i < ePhnum image ∧ (phdr image i).pType = 1

/-- The pages of a segment, from the one in which it starts. -/
def PageOf (p : Phdr) (q : Nat) : Prop := p.pVaddr.toNat / 4096 ≤ q ∧ 4096 * q < p.pVaddr.toNat + p.pMemsz.toNat

def LowSegment (p : Phdr) : Prop := ∀ q, PageOf p q → 4096 * q < 2 ^ 47

def KeyOf (p : Phdr) (k : List Nat × Nat) : Prop := ∃ q, PageOf p q ∧ k = pageKey (.ofNat (4096 * q))

theorem LowSegment.fits (low : LowSegment p) : 0 < p.pMemsz.toNat → p.pVaddr.toNat + p.pMemsz.toNat ≤ 2 ^ 47 := by
  intro some_
  have last := low ((p.pVaddr.toNat + p.pMemsz.toNat - 1) / 4096) ⟨by omega, by omega⟩
  omega

theorem LowSegment.toNat_stop (low : LowSegment p) : (p.pVaddr + p.pMemsz).toNat = p.pVaddr.toNat + p.pMemsz.toNat := by
  have fits := low.fits
  have bound := p.pVaddr.toNat_lt
  rw [UInt64.toNat_add]
  omega

theorem LowSegment.stop_le (low : LowSegment p) (below : p.pVaddr &&& pageMask < p.pVaddr + p.pMemsz) :
    (p.pVaddr + p.pMemsz).toNat ≤ 2 ^ 47 := by
  have before := UInt64.lt_iff_toNat_lt.mp below
  rw [toNat_pageMask, low.toNat_stop] at before
  have first := low (p.pVaddr.toNat / 4096) ⟨by omega, by omega⟩
  have fits := low.fits
  rw [low.toNat_stop]
  omega

theorem segPages_iff (low : LowSegment p) : SegPages (p.pVaddr &&& pageMask) (p.pVaddr + p.pMemsz) k ↔ KeyOf p k := by
  unfold SegPages KeyOf PageOf
  rw [low.toNat_stop, page_mask]
  simp only [and_assoc]

theorem toNat_copySize (p : Phdr) : (copySize p).toNat = min p.pFilesz.toNat p.pMemsz.toNat := by
  unfold copySize
  split
  · next less => rw [min_eq_left (UInt64.lt_iff_toNat_lt.mp less).le]
  · next more => rw [min_eq_right (Nat.le_of_not_lt fun less => more (UInt64.lt_iff_toNat_lt.mpr less))]

theorem LowSegment.copy_fits (low : LowSegment p) (some_ : 0 < (copySize p).toNat) : p.pVaddr.toNat + (copySize p).toNat ≤ 2 ^ 47 := by
  have fits := low.fits
  rw [toNat_copySize] at some_ ⊢
  omega

theorem toNat_page (low : 4096 * q < 2 ^ 47) : (UInt64.ofNat (4096 * q)).toNat = 4096 * q :=
  UInt64.toNat_ofNat_of_lt' (by change 4096 * q < 2 ^ 64; omega)

theorem keyOf_iff (low : LowSegment p) (user : v.toNat < 2 ^ 47) : KeyOf p (pageKey v) ↔ PageOf p (v.toNat / 4096) := by
  constructor
  · rintro ⟨q, page, same⟩
    have number := toNat_page (low q page)
    rw [pageKey_low (by rw [number]; exact low q page) user, number, Nat.mul_div_cancel_left q (by decide)] at same
    rwa [same]
  · intro page
    have number := toNat_page (low _ page)
    refine ⟨v.toNat / 4096, page, (pageKey_low (by rw [number]; exact low _ page) user).mpr ?_⟩
    rw [number, Nat.mul_div_cancel_left _ (by decide)]

/-- The bytes that a segment has at its addresses, and zeros in the rest of its pages. -/
def segmentByte (image : UInt64 → UInt8) (p : Phdr) (v : UInt64) : UInt8 :=
  if p.pVaddr.toNat ≤ v.toNat ∧ v.toNat < p.pVaddr.toNat + (copySize p).toNat then image (p.pOffset + (v - p.pVaddr)) else 0

/-- The pages of a segment have been mapped and filled. -/
structure SegmentLoaded (cr3 : UInt64) (s : Machine) (x y : Kernel σ) (map map' : PageMap) (image : UInt64 → UInt8) (p : Phdr) : Prop where
  loaded : Loaded cr3 s y.machine map'
  hit : ∀ k, KeyOf p k → ∃ g, map' k = some (g, segmentFlags p)
  miss : ∀ k, ¬KeyOf p k → map' k = map k
  bytes : ∀ v, v.toNat < 2 ^ 47 → KeyOf p (pageKey v) → viewOf y.machine.mem cr3 v = segmentByte image p v
  kept : ∀ v, v.toNat < 2 ^ 47 → ¬KeyOf p (pageKey v) → map (pageKey v) ≠ none →
    viewOf y.machine.mem cr3 v = viewOf x.machine.mem cr3 v

theorem copied_keyOf (low : LowSegment p) (small : j < (copySize p).toNat) : KeyOf p (pageKey (p.pVaddr + .ofNat j)) := by
  rw [toNat_copySize] at small
  have fits := low.fits (by omega)
  have sum : (p.pVaddr + UInt64.ofNat j).toNat = p.pVaddr.toNat + j := by
    rw [UInt64.toNat_add, UInt64.toNat_ofNat']
    omega
  rw [keyOf_iff low (by omega), sum]
  exact ⟨by omega, by omega⟩

theorem loadSegment_run (loaded : Loaded cr3 s x.machine map) (load : p.pType = 1) (low : LowSegment p)
    (run : (loadSegment image p).run x = some (none, y)) :
    (∃ map', SegmentLoaded cr3 s x y map map' image p) ∨ freeFrames y.machine = ∅ := by
  unfold loadSegment at run
  rw [if_neg (not_not.mpr load)] at run
  obtain ⟨r, z, mapped, run⟩ := run_bind_eq_some.mp run
  obtain ⟨m, mapping, rfl⟩ := onMachine_run mapped
  cases r with
  | some _ => cases run
  | none =>
      obtain ⟨_, z, copy, run⟩ := run_bind_eq_some.mp run
      obtain ⟨-, rfl⟩ := pure_run run
      have aligned : (p.pVaddr &&& pageMask).toNat % 4096 = 0 := by
        rw [toNat_pageMask]
        omega
      rcases mapSegment_run loaded aligned low.stop_le mapping with ⟨map', laid⟩ | empty
      · refine .inl ⟨map', ?_⟩
        have laid := laid.congr fun k => segPages_iff low
        have inside : ∀ j < (copySize p).toNat, map' (pageKey (p.pVaddr + .ofNat j)) ≠ none := by
          intro j small
          obtain ⟨g, at_⟩ := laid.hit _ (copied_keyOf low small)
          rw [at_]
          exact Option.some_ne_none _
        obtain ⟨loaded', views⟩ := copy_run (x := { x with machine := m }) laid.loaded inside copy
        have views := views low.copy_fits
        exact {
          loaded := loaded'
          hit := laid.hit
          miss := laid.miss
          bytes := by
            intro v user page
            obtain ⟨g, at_⟩ := laid.hit _ page
            rw [views v user (by rw [at_]; exact Option.some_ne_none _)]
            unfold segmentByte
            split
            · rfl
            · exact laid.zero v page
          kept := by
            intro v user other mapped
            rw [views v user (by rw [laid.miss _ other]; exact mapped), if_neg]
            · exact laid.kept v other mapped
            · intro copied
              refine other ((keyOf_iff low user).mpr ⟨by omega, ?_⟩)
              rw [toNat_copySize] at copied
              omega }
      · have spends : KernelSpends { x with machine := m } z := Moves.forRange (fun _ => spends_kernelStore _ _) 0 _ _ _ _ copy
        exact .inr (spends.empty empty)

/-- Segment `j` is the last one before segment `i` that has the page. -/
structure LastOf (image : UInt64 → UInt8) (i j : Nat) (k : List Nat × Nat) : Prop where
  before : j < i
  load : IsLoad image j
  page : KeyOf (phdr image j) k
  last : ∀ l, j < l → l < i → IsLoad image l → ¬KeyOf (phdr image l) k

structure LoadedTo (cr3 : UInt64) (s : Machine) (x : Kernel σ) (map : PageMap) (image : UInt64 → UInt8) (i : Nat) : Prop where
  loaded : Loaded cr3 s x.machine map
  absent : ∀ k, (∀ j < i, IsLoad image j → ¬KeyOf (phdr image j) k) → map k = none
  flags : ∀ j k, LastOf image i j k → ∃ g, map k = some (g, segmentFlags (phdr image j))
  bytes : ∀ j v, v.toNat < 2 ^ 47 → LastOf image i j (pageKey v) → viewOf x.machine.mem cr3 v = segmentByte image (phdr image j) v

omit [Fs.BlockStore σ] in
theorem LoadedTo.skip (before : LoadedTo cr3 s x map image i) (other : ¬IsLoad image i) : LoadedTo cr3 s x map image (i + 1) := by
  have last {j : Nat} {k : List Nat × Nat} (of : LastOf image (i + 1) j k) : LastOf image i j k := by
    refine ⟨?_, of.load, of.page, fun l later small => of.last l later (by omega)⟩
    rcases Nat.lt_succ_iff_lt_or_eq.mp of.before with less | rfl
    · exact less
    · exact (other of.load).elim
  exact {
    loaded := before.loaded
    absent := fun k none => before.absent k fun j small => none j (by omega)
    flags := fun j k of => before.flags j k (last of)
    bytes := fun j v user of => before.bytes j v user (last of) }

omit [Fs.BlockStore σ] in
theorem LoadedTo.step (before : LoadedTo cr3 s x map image i) (load : IsLoad image i)
    (segment : SegmentLoaded cr3 s x y map map' image (phdr image i)) : LoadedTo cr3 s y map' image (i + 1) := by
  have last {j : Nat} {k : List Nat × Nat} (of : LastOf image (i + 1) j k) :
      LastOf image i j k ∧ ¬KeyOf (phdr image i) k ∨ j = i := by
    rcases Nat.lt_succ_iff_lt_or_eq.mp of.before with less | same
    · exact .inl ⟨⟨less, of.load, of.page, fun l later small => of.last l later (by omega)⟩, of.last i less (by omega) load⟩
    · exact .inr same
  exact {
    loaded := segment.loaded
    absent := by
      intro k none
      rw [segment.miss k (none i (by omega) load), before.absent k fun j small => none j (by omega)]
    flags := by
      intro j k of
      rcases last of with ⟨old, other⟩ | rfl
      · rw [segment.miss k other]
        exact before.flags j k old
      · exact segment.hit k of.page
    bytes := by
      intro j v user of
      rcases last of with ⟨old, other⟩ | rfl
      · obtain ⟨g, at_⟩ := before.flags j _ old
        rw [segment.kept v user other (by rw [at_]; exact Option.some_ne_none _), before.bytes j v user old]
      · exact segment.bytes v user of.page }

/-- Either the segments before `i` have been loaded, or there are no frames left. -/
def LoadedOr (x y : Kernel σ) (image : UInt64 → UInt8) (i : Nat) : Prop :=
  (∃ map, LoadedTo x.machine.cr3 x.machine y map image i) ∨ freeFrames y.machine = ∅

theorem loadSegment_step (low : ∀ i, IsLoad image i → LowSegment (phdr image i)) (small : i < ePhnum image) (before : LoadedOr x y image i)
    (run : (loadSegment image (phdr image i)).run y = some (none, z)) : LoadedOr x z image (i + 1) := by
  rcases before with ⟨map, before⟩ | empty
  · by_cases load : (phdr image i).pType = 1
    · rcases loadSegment_run before.loaded load (low i ⟨small, load⟩) run with ⟨map', segment⟩ | empty
      · exact .inl ⟨map', before.step ⟨small, load⟩ segment⟩
      · exact .inr empty
    · unfold loadSegment at run
      rw [if_pos load] at run
      obtain ⟨-, rfl⟩ := pure_run run
      exact .inl ⟨map, before.skip fun isLoad => load isLoad.2⟩
  · exact .inr ((spends_loadSegment image (phdr image i) y none z run).empty empty)

theorem segments_run (tables : FullTables x.machine x.machine.cr3) (reserved : x.machine.bitmap 0 = true)
    (low : ∀ i, IsLoad image i → LowSegment (phdr image i))
    (run : (searchM (fun i => loadSegment image (phdr image i)) 0 (ePhnum image)).run x = some (none, y)) :
    LoadedOr x y image (ePhnum image) := by
  refine searchM_run (fun i z => i ≤ ePhnum image → LoadedOr x z image i) (fun r z => r = none → LoadedOr x z image (ePhnum image))
    ?_ ?_ ?_ run rfl
  · intro _
    refine .inl ⟨fun _ => none, .start tables reserved, fun _ _ => rfl, ?_, ?_⟩
    · intro j k of
      exact absurd of.before (Nat.not_lt_zero j)
    · intro j v _ of
      exact absurd of.before (Nat.not_lt_zero j)
  · intro i y r z _ upper before step
    cases r with
    | some _ => exact fun failed => nomatch failed
    | none => exact fun _ => loadSegment_step low (by omega) (before (by omega)) step
  · intro z done _
    rw [Nat.zero_add] at done
    exact done (Nat.le_refl _)

def UserKey (k : List Nat × Nat) : Prop := ∃ page ∈ userPages, k = pageKey page

structure ProgramLoaded (s t : Machine) (map : PageMap) (image : UInt64 → UInt8) : Prop where
  loaded : Loaded s.cr3 s t map
  absent : ∀ k, ¬UserKey k → (∀ j, IsLoad image j → ¬KeyOf (phdr image j) k) → map k = none
  user : ∀ k, UserKey k → ∃ g, map k = some (g, heapFlags)
  flags : ∀ j k, ¬UserKey k → LastOf image (ePhnum image) j k → ∃ g, map k = some (g, segmentFlags (phdr image j))
  zero : ∀ v, UserKey (pageKey v) → viewOf t.mem s.cr3 v = 0
  bytes : ∀ j v, v.toNat < 2 ^ 47 → ¬UserKey (pageKey v) → LastOf image (ePhnum image) j (pageKey v) →
    viewOf t.mem s.cr3 v = segmentByte image (phdr image j) v

theorem elf64Load_run (tables : FullTables x.machine x.machine.cr3) (reserved : x.machine.bitmap 0 = true)
    (low : ∀ i, IsLoad image i → LowSegment (phdr image i)) (run : (elf64Load image).run x = some (some entry, y)) :
    ∃ map, ProgramLoaded x.machine y.machine map image := by
  unfold elf64Load at run
  split at run
  · cases run
  obtain ⟨r, z, search, run⟩ := run_bind_eq_some.mp run
  cases r with
  | some _ => cases run
  | none =>
      obtain ⟨r, z', mapped, run⟩ := run_bind_eq_some.mp run
      obtain ⟨m, users, rfl⟩ := onMachine_run mapped
      cases r with
      | some _ => cases run
      | none =>
          obtain ⟨-, rfl⟩ := pure_run run
          rcases segments_run tables reserved low search with ⟨map, done⟩ | empty
          · obtain ⟨map', laid⟩ := mapUserPages_run done.loaded users
            exact ⟨map', {
              loaded := laid.loaded
              absent := fun k other none => by rw [laid.miss k other, done.absent k fun j _ => none j]
              user := laid.hit
              flags := fun j k other of => by rw [laid.miss k other]; exact done.flags j k of
              zero := laid.zero
              bytes := by
                intro j v user other of
                obtain ⟨g, at_⟩ := done.flags j _ of
                rw [laid.kept v other (by rw [at_]; exact Option.some_ne_none _), done.bytes j v user of] }⟩
          · unfold userPages mapUserPages at users
            obtain ⟨r, w, first, rest⟩ := run_bind_eq_some.mp users
            obtain ⟨rfl, -⟩ := mapZeroPage_empty empty first
            cases rest

end SwiftBSD.Proof.User
