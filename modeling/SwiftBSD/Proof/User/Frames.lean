import SwiftBSD.Proof.User.Segments

namespace SwiftBSD.Proof.User
open Lib SwiftBSD.Mm SwiftBSD.Sched SwiftBSD.User SwiftBSD.Proof.Mm SwiftBSD.Proof.Sched

variable {σ : Type} [Fs.BlockStore σ] {s t u : Machine} {x y : Kernel σ} {image : UInt64 → UInt8} {p : Phdr} {cr3 base flags stop v a off : UInt64}
  {b : UInt8} {g i j n : Nat} {map : PageMap}

theorem mapZeroPage_succeeds (flags : UInt64) (tables : FullTables s s.cr3) (reserved : s.bitmap 0 = true) (enough : 4 ≤ (freeFrames s).card)
    (aligned : base &&& pageMask = base) : ∃ t g, (mapZeroPage base flags).run s = some (none, t) ∧
      Given s t base g (pteOf (addrOf g) flags) ∧ ∀ i, i < 512 → t.mem g i = 0 := by
  obtain ⟨a, s₁, alloc, nonzero⟩ := pageAlloc_succeeds reserved (by omega : 0 < (freeFrames s).card)
  obtain ⟨g, fresh, rfl, -⟩ := pageAlloc_fresh alloc nonzero
  have filling : ∃ u, (forRange (fun i => setWord (addrOf g) i 0) 0 512).run s₁ = some ((), u) := forRange_total (fun _ _ => ⟨_, rfl⟩) 0 512 s₁
  obtain ⟨s₂, fill⟩ := filling
  obtain ⟨register, last, bitmap, other, words⟩ := fill_run fill
  rw [frameOf_addrOf fresh.bounded] at other words
  have fresh' : Fresh s s₂ g := ⟨fresh.small, fresh.free, fresh.first, bitmap.trans fresh.bitmap, register.trans fresh.register,
    last.trans fresh.last, fun h differ => (other h differ).trans (fresh.same h differ)⟩
  obtain ⟨t, map⟩ := vmmMapInCr3_total s.cr3 base (addrOf g) flags s₂
  have map' : (vmmMapInCr3 s.cr3 (base &&& pageMask) (addrOf g) flags).run s₂ = some ((), t) := by rw [aligned, map]
  obtain ⟨given, contents⟩ := fresh'.given tables reserved enough map'
  refine ⟨t, g, ?_, given, fun i small => by rw [contents, words, if_pos small]⟩
  have zeroed : pageAllocZero.run s = some (addrOf g, s₂) := by
    unfold pageAllocZero
    rw [run_bind_some alloc, if_pos nonzero, run_bind_some fill]
    rfl
  unfold mapZeroPage
  rw [run_bind_some zeroed, if_neg nonzero]
  refine run_bind_eq_some.mpr ⟨(), t, ?_, rfl⟩
  unfold vmmMap
  rw [run_bind_some (x := get) rfl, fresh'.register]
  exact map

/-- The number of pages from `first` on that start below `stop`. -/
def countPages (first stop : Nat) : Nat := (stop + 4095) / 4096 - first / 4096

theorem mapSegment_succeeds (flags : UInt64) (loaded : Loaded cr3 s t map) (aligned : base.toNat % 4096 = 0) (low : base < stop → stop.toNat ≤ 2 ^ 47)
    (enough : 4 * countPages base.toNat stop.toNat ≤ (freeFrames t).card) (fuel : countPages base.toNat stop.toNat < n) :
    ∃ u map', (mapSegment flags stop n base).run t = some (none, u) ∧ Laid cr3 s t u flags map map' (SegPages base stop) ∧
      (freeFrames t).card ≤ (freeFrames u).card + 4 * countPages base.toNat stop.toNat := by
  induction n generalizing t base map with
  | zero => exact absurd fuel (Nat.not_lt_zero _)
  | succ n ih =>
      unfold mapSegment
      by_cases below : base < stop
      · rw [if_pos below]
        have bound := low below
        have before := UInt64.lt_iff_toNat_lt.mp below
        have next : (base + 0x1000).toNat = base.toNat + 4096 := by
          rw [UInt64.toNat_add]
          change (base.toNat + 4096) % 2 ^ 64 = _
          omega
        have count : countPages base.toNat stop.toNat = countPages (base + 0x1000).toNat stop.toNat + 1 := by
          unfold countPages
          rw [next]
          omega
        obtain rfl := loaded.register
        obtain ⟨v, g, page, given, zero⟩ := mapZeroPage_succeeds flags loaded.tables loaded.reserved (by omega) (page_mask_eq aligned)
        have single := Laid.single loaded given zero
        have spent := given.card
        have aligned' : (base + 0x1000).toNat % 4096 = 0 := by omega
        obtain ⟨u, map', rest, laid, card⟩ := ih single.loaded aligned' (fun _ => bound) (by omega) (by omega)
        refine ⟨u, map', ?_, (single.trans laid).congr fun k => segPages_succ aligned below bound, by omega⟩
        rw [run_bind_some page]
        exact rest
      · rw [if_neg below]
        refine ⟨t, map, rfl, .none loaded ?_, by omega⟩
        rintro k ⟨q, lower, upper, -⟩
        have := UInt64.lt_iff_toNat_lt.not.mp below
        omega

theorem kernelStore_succeeds (loaded : Loaded cr3 s x.machine map) (mapped : map (pageKey v) ≠ none) (can : canonical v = true) :
    ∃ y, (kernelStore v b).run x = some ((), y) ∧ freeFrames y.machine = freeFrames x.machine := by
  obtain ⟨⟨g, flags⟩, at_⟩ := Option.ne_none_iff_exists'.mp mapped
  obtain ⟨tr, here, -⟩ := loaded.translated at_
  have access : (kernelAccess v pfWrite).run x = some (tr, x) := by
    unfold kernelAccess
    rw [run_bind_some (x := get) rfl, can]
    dsimp only
    rw [loaded.register, here]
    rfl
  unfold kernelStore
  rw [run_bind_some access]
  exact ⟨_, rfl, rfl⟩

theorem copy_succeeds (image : UInt64 → UInt8) (off : UInt64) (loaded : Loaded cr3 s x.machine map) (inside : ∀ j < n, map (pageKey (a + .ofNat j)) ≠ none)
    (fits : 0 < n → a.toNat + n ≤ 2 ^ 47) : ∃ y, (forRange (fun j => kernelStore (a + .ofNat j) (image (off + .ofNat j))) 0 n).run x = some ((), y) ∧
      freeFrames y.machine = freeFrames x.machine := by
  have done : ∃ y, (forRange (fun j => kernelStore (a + .ofNat j) (image (off + .ofNat j))) 0 n).run x = some ((), y) ∧
      Loaded cr3 s y.machine map ∧ freeFrames y.machine = freeFrames x.machine := by
    refine forRange_succeeds (fun _ (z : Kernel σ) => Loaded cr3 s z.machine map ∧ freeFrames z.machine = freeFrames x.machine) ⟨loaded, rfl⟩ ?_
    rintro j z - upper ⟨loaded', free⟩
    have bound := fits (by omega)
    have sum : (a + UInt64.ofNat j).toNat = a.toNat + j := by
      rw [UInt64.toNat_add, UInt64.toNat_ofNat']
      omega
    have mapped := inside j (by omega)
    obtain ⟨z', step, free'⟩ := kernelStore_succeeds (b := image (off + .ofNat j)) loaded' mapped (canonical_iff.mpr (.inl (by omega)))
    obtain ⟨⟨g, flags⟩, at_⟩ := Option.ne_none_iff_exists'.mp mapped
    exact ⟨z', step, (kernelStore_mapped loaded' at_ step).1, free'.trans free⟩
  obtain ⟨y, run, -, free⟩ := done
  exact ⟨y, run, free⟩

def pagesOf (p : Phdr) : Nat := if p.pType = 1 then countPages p.pVaddr.toNat (p.pVaddr.toNat + p.pMemsz.toNat) else 0

theorem loadSegment_succeeds (image : UInt64 → UInt8) (loaded : Loaded cr3 s x.machine map) (low : p.pType = 1 → LowSegment p)
    (enough : 4 * pagesOf p ≤ (freeFrames x.machine).card) : ∃ y map', (loadSegment image p).run x = some (none, y) ∧
      Loaded cr3 s y.machine map' ∧ (freeFrames x.machine).card ≤ (freeFrames y.machine).card + 4 * pagesOf p := by
  unfold loadSegment
  by_cases load : p.pType = 1
  · rw [if_neg (not_not.mpr load)]
    have low := low load
    have aligned : (p.pVaddr &&& pageMask).toNat % 4096 = 0 := by
      rw [toNat_pageMask]
      omega
    have count : countPages (p.pVaddr &&& pageMask).toNat (p.pVaddr + p.pMemsz).toNat = pagesOf p := by
      unfold pagesOf countPages
      rw [if_pos load, page_mask, low.toNat_stop]
    have all := freeFrames_card_le x.machine
    obtain ⟨m, map', mapping, laid, card⟩ := mapSegment_succeeds (n := maxPages + 1) (segmentFlags p) loaded aligned low.stop_le
      (by omega) (by omega)
    have laid := laid.congr fun k => segPages_iff low
    rw [count] at card
    have inside : ∀ j < (copySize p).toNat, map' (pageKey (p.pVaddr + .ofNat j)) ≠ none := by
      intro j small
      obtain ⟨g, at_⟩ := laid.hit _ (copied_keyOf low small)
      rw [at_]
      exact Option.some_ne_none _
    obtain ⟨y, copy, free⟩ := copy_succeeds (x := { x with machine := m }) image p.pOffset laid.loaded inside low.copy_fits
    refine ⟨y, map', ?_, (copy_run (x := { x with machine := m }) laid.loaded inside copy).1, ?_⟩
    · have mapped : (onMachine (mapSegment (segmentFlags p) (p.pVaddr + p.pMemsz) (maxPages + 1) (p.pVaddr &&& pageMask)) : KernelM σ _).run x =
        some (none, { x with machine := m }) := Option.map_eq_some_iff.mpr ⟨_, mapping, rfl⟩
      rw [run_bind_some mapped]
      exact run_bind_eq_some.mpr ⟨(), y, copy, rfl⟩
    · rw [free]
      exact card
  · rw [if_pos load]
    exact ⟨x, map, rfl, loaded, by omega⟩

def pagesFrom (image : UInt64 → UInt8) (i : Nat) : Nat := ∑ j ∈ Finset.Ico i (ePhnum image), pagesOf (phdr image j)

theorem mapUserPages_succeeds (pages : List UInt64) (loaded : Loaded cr3 s t map) (aligned : ∀ page ∈ pages, page &&& pageMask = page)
    (enough : 4 * pages.length ≤ (freeFrames t).card) : ∃ u, (mapUserPages pages).run t = some (none, u) := by
  induction pages generalizing t map with
  | nil => exact ⟨t, rfl⟩
  | cons page rest ih =>
      rw [List.length_cons] at enough
      obtain rfl := loaded.register
      obtain ⟨v, g, first, given, zero⟩ := mapZeroPage_succeeds heapFlags loaded.tables loaded.reserved (by omega)
        (aligned page (List.mem_cons_self ..))
      have spent := given.card
      obtain ⟨u, run⟩ := ih (loaded.page given) (fun page member => aligned page (List.mem_cons_of_mem _ member)) (by omega)
      refine ⟨u, ?_⟩
      unfold mapUserPages
      rw [run_bind_some first]
      exact run

theorem elf64Load_succeeds (tables : FullTables x.machine x.machine.cr3) (reserved : x.machine.bitmap 0 = true) (header : headerOk image = true)
    (low : ∀ i, IsLoad image i → LowSegment (phdr image i)) (enough : 4 * (pagesFrom image 0 + 4) ≤ (freeFrames x.machine).card) :
    ∃ y, (elf64Load image).run x = some (some (eEntry image), y) := by
  have segments : ∃ y, (searchM (fun i => (loadSegment image (phdr image i) : KernelM σ _)) 0 (ePhnum image)).run x = some (none, y) ∧
      ∃ map, Loaded x.machine.cr3 x.machine y.machine map ∧ 4 * (pagesFrom image (0 + ePhnum image) + 4) ≤ (freeFrames y.machine).card := by
    refine searchM_total
      (fun i (z : Kernel σ) => ∃ map, Loaded x.machine.cr3 x.machine z.machine map ∧ 4 * (pagesFrom image i + 4) ≤ (freeFrames z.machine).card)
      ⟨_, .start tables reserved, enough⟩ ?_
    rintro i z - upper ⟨map, loaded, card⟩
    rw [Nat.zero_add] at upper
    have split : pagesFrom image i = pagesOf (phdr image i) + pagesFrom image (i + 1) := by
      unfold pagesFrom
      rw [← Finset.insert_Ico_add_one_left_eq_Ico upper, Finset.sum_insert]
      simp
    obtain ⟨z', map', run, loaded', spent⟩ := loadSegment_succeeds image loaded (fun load => low i ⟨upper, load⟩) (by omega)
    exact ⟨z', run, map', loaded', by omega⟩
  obtain ⟨y, search, map, loaded, card⟩ := segments
  obtain ⟨m, users⟩ := mapUserPages_succeeds userPages loaded (fun page member => (userPages_low page member).1) (by change 4 * 4 ≤ _; omega)
  have mapped : (onMachine (mapUserPages userPages) : KernelM σ _).run y = some (none, { y with machine := m }) :=
    Option.map_eq_some_iff.mpr ⟨_, users, rfl⟩
  refine ⟨{ y with machine := m }, ?_⟩
  unfold elf64Load
  rw [if_neg (by rw [header]; decide), run_bind_some search]
  dsimp only
  rw [run_bind_some mapped]
  rfl

end SwiftBSD.Proof.User
