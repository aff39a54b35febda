import SwiftBSD.Proof.Mm.Cow
import SwiftBSD.Proof.User.Filled
import SwiftBSD.Proof.User.Heap
import SwiftBSD.Proof.User.OutOfMemory

namespace SwiftBSD.Proof.User
open Lib SwiftBSD.Mm SwiftBSD.Sched SwiftBSD.User SwiftBSD.Proof.Mm SwiftBSD.Proof.Sched

variable {s t u w : Machine} {cr3 base flags v v' e : UInt64} {g i : Nat}

def pageKey (v : UInt64) : List Nat × Nat := (routeFrom 3 v, index 0 v)

theorem pageKey_eq : pageKey v' = pageKey v ↔ SamePage v v' := Prod.mk_inj

/-- The frames that pages have been given, and their flags. -/
abbrev PageMap := List Nat × Nat → Option (Nat × UInt64)

variable {map map' map'' : PageMap} {k : List Nat × Nat} {R R' : List Nat × Nat → Prop}

/-- The pages of `map` have been mapped since `s`, each by a frame that is no table and that no other page has. -/
structure Loaded (cr3 : UInt64) (s t : Machine) (map : PageMap) : Prop where
  tables : FullTables t cr3
  register : t.cr3 = cr3
  reserved : t.bitmap 0 = true
  frames : ∀ k g flags, map k = some (g, flags) → g ≤ maxPages ∧ t.bitmap g = true ∧ ¬IsTable t.mem cr3 g
  here : ∀ v g flags, map (pageKey v) = some (g, flags) → (translate t.mem cr3 v).map Translation.access =
    some (Translation.access (Translation.inHalf (decide (index 3 v < 256)) (leafAt 0 (pteOf (addrOf g) flags) v)))
  others : ∀ v, map (pageKey v) = none → (translate t.mem cr3 v).map Translation.access = (translate s.mem cr3 v).map Translation.access
  single : ∀ k k' g flags flags', map k = some (g, flags) → map k' = some (g, flags') → k = k'

theorem Loaded.start (tables : FullTables s s.cr3) (reserved : s.bitmap 0 = true) : Loaded s.cr3 s s fun _ => none where
  tables := tables
  register := rfl
  reserved := reserved
  frames := fun _ _ _ none => nomatch none
  here := fun _ _ _ none => nomatch none
  others := fun _ _ => rfl
  single := fun _ _ _ _ _ none => nomatch none

theorem Loaded.page (loaded : Loaded cr3 s t map) (given : Given t u base g (pteOf (addrOf g) flags)) :
    Loaded cr3 s u (Function.update map (pageKey base) (some (g, flags))) := by
  obtain rfl := loaded.register
  have kept {h : Nat} (used : t.bitmap h = true) (notTable : ¬IsTable t.mem t.cr3 h) : ¬IsTable u.mem t.cr3 h :=
    (given_frame given used notTable).2
  have other {k k' : List Nat × Nat} {flags : UInt64} (at_ : map k = some (g, flags)) : k = k' := by
    have used := (loaded.frames _ _ _ at_).2.1
    rw [given.free] at used
    cases used
  exact {
    tables := given.tables
    register := given.register
    reserved := given.grows 0 loaded.reserved
    frames := by
      intro k h flags' at_
      rw [Function.update_apply] at at_
      split at at_
      · cases at_
        exact ⟨given.small.le.trans t.bounded, given.taken, given.notTable⟩
      · obtain ⟨bound, used, notTable⟩ := loaded.frames k h flags' at_
        exact ⟨bound, given.grows h used, kept used notTable⟩
    here := by
      intro v h flags' at_
      rw [Function.update_apply] at at_
      split at at_
      · next same =>
          cases at_
          have samePage := pageKey_eq.mp same
          have half : index 3 v = index 3 base := by
            have route := samePage.1
            simp only [routeFrom, List.cons.injEq] at route
            exact route.1
          rw [given.here v samePage, half]
          rfl
      · next differs => rw [given.others v fun same => differs (pageKey_eq.mpr same), loaded.here v h flags' at_]
    others := by
      intro v absent
      rw [Function.update_apply] at absent
      split at absent
      · cases absent
      · next differs => rw [given.others v fun same => differs (pageKey_eq.mpr same), loaded.others v absent]
    single := by
      intro k k' h flags' flags'' at_ at'
      rw [Function.update_apply] at at_ at'
      split at at_ <;> split at at'
      · next same same' => rw [same, same']
      · cases at_
        exact (other at').symm
      · cases at'
        exact other at_
      · exact loaded.single k k' h flags' flags'' at_ at' }

theorem Loaded.byte (loaded : Loaded cr3 s t map) (at_ : map k = some (g, flags)) : Loaded cr3 s (setEntry t g i e) map := by
  obtain ⟨-, -, notTable⟩ := loaded.frames _ _ _ at_
  have keep (f : Nat) (table : IsTable t.mem cr3 f) : (setEntry t g i e).mem f = t.mem f := by
    refine setEntry_other ?_
    rintro rfl
    exact notTable table
  have same (v : UInt64) : translate (setEntry t g i e).mem cr3 v = translate t.mem cr3 v :=
    loaded.tables.translate_same keep v
  exact {
    tables := loaded.tables.keep keep fun f table => loaded.tables.isTable_taken table
    register := loaded.register
    reserved := loaded.reserved
    frames := by
      intro k h flags' at'
      obtain ⟨bound, used, notTable'⟩ := loaded.frames k h flags' at'
      exact ⟨bound, used, fun table => notTable' ((isTable_keep keep).mp table)⟩
    here := fun v h flags' at' => by rw [same, loaded.here v h flags' at']
    others := fun v absent => by rw [same, loaded.others v absent]
    single := loaded.single }

theorem Loaded.translated (loaded : Loaded cr3 s t map) (at_ : map (pageKey v) = some (g, flags)) :
    ∃ tr, translate t.mem cr3 v = some tr ∧ tr.phys = g * 4096 + v.toNat % 4096 := by
  obtain ⟨tr, here, access⟩ := Option.map_eq_some_iff.mp (loaded.here v g flags at_)
  refine ⟨tr, here, ?_⟩
  have phys := congrArg Access.phys access
  change tr.phys = (leafAt 0 (pteOf (addrOf g) flags) v).phys at phys
  rw [phys, phys_leafAt, tableOf_pteOf (loaded.frames _ _ _ at_).1]

theorem Loaded.view (loaded : Loaded cr3 s t map) (at_ : map (pageKey v) = some (g, flags)) :
    viewOf t.mem cr3 v = byteAt t.mem (g * 4096 + v.toNat % 4096) := by
  obtain ⟨tr, here, phys⟩ := loaded.translated at_
  rw [viewOf_some here, phys]

theorem Loaded.page_zero (loaded : Loaded cr3 s t map) (given : Given t u base g (pteOf (addrOf g) flags)) (zero : ∀ i, i < 512 → u.mem g i = 0)
    (same : pageKey v = pageKey base) : viewOf u.mem cr3 v = 0 := by
  have at_ : Function.update map (pageKey base) (some (g, flags)) (pageKey v) = some (g, flags) := by rw [same, Function.update_self]
  have small := Nat.mod_lt v.toNat (show 0 < 4096 by decide)
  rw [(loaded.page given).view at_, byteAt_eq g small, zero _ (by omega)]
  have none : ∀ k < 8, byteOf 0 k = 0 := by decide
  exact none _ (Nat.mod_lt _ (by decide))

theorem Loaded.page_kept (loaded : Loaded cr3 s t map) (given : Given t u base g (pteOf (addrOf g) flags))
    (differs : pageKey v ≠ pageKey base) (mapped : map (pageKey v) ≠ none) : viewOf u.mem cr3 v = viewOf t.mem cr3 v := by
  obtain ⟨⟨h, flags'⟩, at_⟩ := Option.ne_none_iff_exists'.mp mapped
  have at' : Function.update map (pageKey base) (some (g, flags)) (pageKey v) = some (h, flags') := by rw [Function.update_of_ne differs, at_]
  rw [(loaded.page given).view at', loaded.view at_]
  refine byteAt_frame (Nat.mod_lt _ (by decide)) ?_
  obtain ⟨-, used, notTable⟩ := loaded.frames _ _ _ at_
  obtain rfl := loaded.register
  exact (given_frame given used notTable).1

theorem Loaded.stored_view (loaded : Loaded cr3 s t map) (at_ : map (pageKey v) = some (g, flags)) (mapped : map (pageKey v') ≠ none) {phys : Nat}
    {b : UInt8} (place : phys = g * 4096 + v.toNat % 4096) :
    viewOf (setEntry t (phys / 4096) (phys % 4096 / 8) (putByte (t.mem (phys / 4096) (phys % 4096 / 8)) (phys % 8) b)).mem cr3 v' =
      if pageKey v' = pageKey v ∧ v'.toNat % 4096 = v.toNat % 4096 then b else viewOf t.mem cr3 v' := by
  obtain ⟨⟨h, flags'⟩, at'⟩ := Option.ne_none_iff_exists'.mp mapped
  have frame : phys / 4096 = g := by omega
  have small := Nat.mod_lt v'.toNat (show 0 < 4096 by decide)
  rw [frame]
  rw [(loaded.byte at_).view at', loaded.view at', byteAt_eq h small, byteAt_eq h small]
  by_cases same : h = g
  · subst same
    have key : pageKey v' = pageKey v := loaded.single _ _ _ _ _ at' at_
    rw [setEntry_same, Function.update_apply]
    by_cases word : v'.toNat % 4096 / 8 = phys % 4096 / 8
    · rw [if_pos word, byteOf_putByte _ _ _ (Nat.mod_lt _ (by decide)), word]
      by_cases byte : v'.toNat % 4096 = v.toNat % 4096
      · rw [if_pos (by omega), if_pos ⟨key, byte⟩]
      · rw [if_neg (by omega), if_neg fun both => byte both.2]
    · rw [if_neg word, if_neg fun both => word (by omega)]
  · rw [setEntry_other same, if_neg]
    rintro ⟨key, -⟩
    rw [key, at_] at at'
    exact same (Prod.mk.inj (Option.some.inj at')).1.symm

/-- The pages in `R` have been mapped with `flags`, and hold zeros. -/
structure Laid (cr3 : UInt64) (s t u : Machine) (flags : UInt64) (map map' : PageMap) (R : List Nat × Nat → Prop) : Prop where
  loaded : Loaded cr3 s u map'
  hit : ∀ k, R k → ∃ g, map' k = some (g, flags)
  miss : ∀ k, ¬R k → map' k = map k
  zero : ∀ v, R (pageKey v) → viewOf u.mem cr3 v = 0
  kept : ∀ v, ¬R (pageKey v) → map (pageKey v) ≠ none → viewOf u.mem cr3 v = viewOf t.mem cr3 v

theorem Laid.none (loaded : Loaded cr3 s t map) (empty : ∀ k, ¬R k) : Laid cr3 s t t flags map map R where
  loaded := loaded
  hit := fun k inside => (empty k inside).elim
  miss := fun _ _ => rfl
  zero := fun _ inside => (empty _ inside).elim
  kept := fun _ _ _ => rfl

theorem Laid.single (loaded : Loaded cr3 s t map) (given : Given t u base g (pteOf (addrOf g) flags)) (zero : ∀ i, i < 512 → u.mem g i = 0) :
    Laid cr3 s t u flags map (Function.update map (pageKey base) (some (g, flags))) (· = pageKey base) where
  loaded := loaded.page given
  hit := fun k inside => ⟨g, by rw [inside, Function.update_self]⟩
  miss := fun k outside => Function.update_of_ne outside _ _
  zero := fun _ inside => loaded.page_zero given zero inside
  kept := fun _ outside mapped => loaded.page_kept given outside mapped

theorem Laid.trans (first : Laid cr3 s t u flags map map' R) (second : Laid cr3 s u w flags map' map'' R') :
    Laid cr3 s t w flags map map'' fun k => R k ∨ R' k where
  loaded := second.loaded
  hit := by
    intro k inside
    by_cases later : R' k
    · exact second.hit k later
    · rw [second.miss k later]
      exact first.hit k (inside.resolve_right later)
  miss := by
    intro k outside
    rw [not_or] at outside
    rw [second.miss k outside.2, first.miss k outside.1]
  zero := by
    intro v inside
    by_cases later : R' (pageKey v)
    · exact second.zero v later
    · obtain ⟨g, at_⟩ := first.hit _ (inside.resolve_right later)
      rw [second.kept v later (by rw [at_]; exact Option.some_ne_none _), first.zero v (inside.resolve_right later)]
  kept := by
    intro v outside mapped
    rw [not_or] at outside
    rw [second.kept v outside.2 (by rw [first.miss _ outside.1]; exact mapped), first.kept v outside.1 mapped]

theorem Laid.congr (laid : Laid cr3 s t u flags map map' R) (same : ∀ k, R k ↔ R' k) : Laid cr3 s t u flags map map' R' := by
  obtain rfl : R = R' := funext fun k => propext (same k)
  exact laid

theorem mapZeroPage_run (tables : FullTables s s.cr3) (reserved : s.bitmap 0 = true) (aligned : base &&& pageMask = base)
    (run : (mapZeroPage base flags).run s = some (none, t)) :
    (∃ g, Given s t base g (pteOf (addrOf g) flags) ∧ ∀ i, i < 512 → t.mem g i = 0) ∨
      freeFrames t = ∅ ∧ tableAt next s.mem (frameOf s.cr3) (routeFrom 3 base) = none := by
  unfold mapZeroPage pageAllocZero at run
  obtain ⟨phys, s₁, zeroed, run⟩ := run_bind_eq_some.mp run
  obtain ⟨a, s₂, alloc, zeroing⟩ := run_bind_eq_some.mp zeroed
  by_cases none : a = 0
  · rw [if_neg (not_not.mpr none)] at zeroing
    obtain ⟨rfl, rfl⟩ := pure_run zeroing
    rw [if_pos none] at run
    cases run
  rw [if_pos none] at zeroing
  obtain ⟨_, s₃, fill, zeroing⟩ := run_bind_eq_some.mp zeroing
  obtain ⟨rfl, rfl⟩ := pure_run zeroing
  rw [if_neg none] at run
  obtain ⟨g, fresh, rfl, same⟩ := pageAlloc_fresh alloc none
  obtain ⟨register, last, bitmap, other, words⟩ := fill_run fill
  rw [frameOf_addrOf fresh.bounded] at other words
  have fresh' : Fresh s s₃ g := ⟨fresh.small, fresh.free, fresh.first, bitmap.trans fresh.bitmap, register.trans fresh.register,
    last.trans fresh.last, fun h differ => (other h differ).trans (fresh.same h differ)⟩
  obtain ⟨_, u, map, run⟩ := run_bind_eq_some.mp run
  obtain ⟨-, rfl⟩ := pure_run run
  unfold vmmMap at map
  rw [run_bind_some (x := get) rfl, fresh'.register] at map
  rcases vmmMapInCr3_mapped_or (fresh'.tables tables) (fresh'.grows reserved) map with mapped | ⟨empty, missing⟩
  · rw [← aligned] at mapped
    obtain ⟨given, contents⟩ := fresh'.given_mapped tables mapped
    refine .inl ⟨g, given, fun i small => ?_⟩
    rw [contents, words, if_pos small]
  · refine .inr ⟨empty, ?_⟩
    rw [← tableAt_keep (fun f table => fresh'.same f (fresh'.notTable tables table)) (path_routeFrom (index_lt 3 base))]
    exact missing

theorem page_mask_eq {v : UInt64} (aligned : v.toNat % 4096 = 0) : v &&& pageMask = v := by
  apply UInt64.toNat_inj.mp
  rw [toNat_pageMask]
  omega

/-- The pages from `first` on that start below `stop`. -/
def SegPages (first stop : UInt64) (k : List Nat × Nat) : Prop :=
  ∃ q, first.toNat / 4096 ≤ q ∧ 4096 * q < stop.toNat ∧ k = pageKey (.ofNat (4096 * q))

theorem segPages_succ {stop : UInt64} (aligned : base.toNat % 4096 = 0) (below : base < stop) (low : stop.toNat ≤ 2 ^ 47) :
    k = pageKey base ∨ SegPages (base + 0x1000) stop k ↔ SegPages base stop k := by
  have before := UInt64.lt_iff_toNat_lt.mp below
  have next : (base + 0x1000).toNat = base.toNat + 4096 := by
    rw [UInt64.toNat_add]
    change (base.toNat + 4096) % 2 ^ 64 = _
    omega
  have first : UInt64.ofNat (4096 * (base.toNat / 4096)) = base := by
    rw [Nat.mul_div_cancel' (Nat.dvd_of_mod_eq_zero aligned)]
    exact UInt64.ofNat_toNat
  unfold SegPages
  rw [next]
  constructor
  · rintro (rfl | ⟨q, lower, upper, rfl⟩)
    · exact ⟨base.toNat / 4096, Nat.le_refl _, by omega, by rw [first]⟩
    · exact ⟨q, by omega, upper, rfl⟩
  · rintro ⟨q, lower, upper, rfl⟩
    rcases Nat.eq_or_lt_of_le lower with here | above
    · exact .inl (by rw [← here, first])
    · exact .inr ⟨q, by omega, upper, rfl⟩

theorem mapSegment_run {n : Nat} {stop : UInt64} (loaded : Loaded cr3 s t map) (aligned : base.toNat % 4096 = 0)
    (low : base < stop → stop.toNat ≤ 2 ^ 47) (run : (mapSegment flags stop n base).run t = some (none, u)) :
    (∃ map', Laid cr3 s t u flags map map' (SegPages base stop)) ∨ freeFrames u = ∅ := by
  induction n generalizing t base map with
  | zero => cases run
  | succ n ih =>
      unfold mapSegment at run
      split at run
      · next below =>
          have bound := low below
          have before := UInt64.lt_iff_toNat_lt.mp below
          obtain ⟨r, v, page, run⟩ := run_bind_eq_some.mp run
          cases r with
          | some _ => cases run
          | none =>
              obtain rfl := loaded.register
              rcases mapZeroPage_run loaded.tables loaded.reserved (page_mask_eq aligned) page with ⟨g, given, zero⟩ | ⟨empty, -⟩
              · have single := Laid.single loaded given zero
                have next : (base + 0x1000).toNat = base.toNat + 4096 := by
                  rw [UInt64.toNat_add]
                  change (base.toNat + 4096) % 2 ^ 64 = _
                  omega
                rcases ih single.loaded (by omega) (fun _ => bound) run with ⟨map', laid⟩ | empty
                · exact .inl ⟨map', (single.trans laid).congr fun k => segPages_succ aligned below bound⟩
                · exact .inr empty
              · exact .inr ((spends_mapSegment flags stop n _ v none u run).empty empty)
      · next beyond =>
          obtain ⟨-, rfl⟩ := pure_run run
          refine .inl ⟨map, .none loaded ?_⟩
          rintro k ⟨q, lower, upper, -⟩
          have := UInt64.lt_iff_toNat_lt.not.mp beyond
          omega

theorem given_route (given : Given s t base g e) : tableAt next t.mem (frameOf s.cr3) (routeFrom 3 base) ≠ none := by
  obtain ⟨pt, at_, -⟩ := given.tables.translate_small (given.here base (samePage_of_page rfl)) rfl
  rw [at_]
  exact Option.some_ne_none _

theorem mapUserPages_step {page : UInt64} {rest : List UInt64} (loaded : Loaded cr3 s t map) (aligned : page &&& pageMask = page)
    (run : (mapUserPages (page :: rest)).run t = some (none, u)) : ∃ v, (mapUserPages rest).run v = some (none, u) ∧
      ((∃ g, Given t v page g (pteOf (addrOf g) heapFlags) ∧ ∀ i, i < 512 → v.mem g i = 0) ∨
        freeFrames v = ∅ ∧ tableAt next t.mem (frameOf cr3) (routeFrom 3 page) = none) := by
  obtain rfl := loaded.register
  unfold mapUserPages at run
  obtain ⟨r, v, first, run⟩ := run_bind_eq_some.mp run
  cases r with
  | some _ => cases run
  | none => exact ⟨v, run, mapZeroPage_run loaded.tables loaded.reserved aligned first⟩

theorem mapUserPages_laid {page page' : UInt64} {rest : List UInt64} (loaded : Loaded cr3 s t map) (aligned : page &&& pageMask = page)
    (run : (mapUserPages (page :: page' :: rest)).run t = some (none, u)) : ∃ v g, (mapUserPages (page' :: rest)).run v = some (none, u) ∧
      Given t v page g (pteOf (addrOf g) heapFlags) ∧ ∀ i, i < 512 → v.mem g i = 0 := by
  obtain ⟨v, run, given | ⟨empty, -⟩⟩ := mapUserPages_step loaded aligned run
  · obtain ⟨g, given, zero⟩ := given
    exact ⟨v, g, run, given, zero⟩
  · unfold mapUserPages at run
    obtain ⟨r, w, first, run⟩ := run_bind_eq_some.mp run
    obtain ⟨rfl, -⟩ := mapZeroPage_empty empty first
    cases run

theorem userPages_low : ∀ page ∈ userPages, page &&& pageMask = page ∧ page.toNat + 4096 ≤ 2 ^ 47 := by
  refine List.forall_mem_cons.mpr ⟨by decide, List.forall_mem_cons.mpr ⟨by decide, List.forall_mem_cons.mpr ⟨by decide, ?_⟩⟩⟩
  exact List.forall_mem_singleton.mpr (by decide)

theorem mapUserPages_run (loaded : Loaded cr3 s t map) (run : (mapUserPages userPages).run t = some (none, u)) :
    ∃ map', Laid cr3 s t u heapFlags map map' fun k => ∃ page ∈ userPages, k = pageKey page := by
  obtain ⟨t₁, g₁, run, given₁, zero₁⟩ := mapUserPages_laid loaded (by decide) run
  have laid₁ := Laid.single loaded given₁ zero₁
  obtain ⟨t₂, g₂, run, given₂, zero₂⟩ := mapUserPages_laid laid₁.loaded (by decide) run
  have laid₂ := laid₁.trans (.single laid₁.loaded given₂ zero₂)
  obtain ⟨t₃, g₃, run, given₃, zero₃⟩ := mapUserPages_laid laid₂.loaded (by decide) run
  have laid₃ := laid₂.trans (.single laid₂.loaded given₃ zero₃)
  obtain ⟨t₄, run, given | ⟨-, missing⟩⟩ := mapUserPages_step laid₃.loaded (by decide) run
  · obtain ⟨g₄, given₄, zero₄⟩ := given
    obtain ⟨-, rfl⟩ := pure_run run
    refine ⟨_, (laid₃.trans (.single laid₃.loaded given₄ zero₄)).congr fun k => ?_⟩
    unfold userPages
    simp only [List.mem_cons, List.not_mem_nil, or_false, exists_eq_or_imp, exists_eq_left]
    tauto
  · have route := given_route given₃
    rw [laid₂.loaded.register] at route
    exact (route missing).elim

theorem pageKey_low (low : v.toNat < 2 ^ 47) (low' : v'.toNat < 2 ^ 47) : pageKey v' = pageKey v ↔ v'.toNat / 4096 = v.toNat / 4096 := by
  rw [pageKey_eq]
  constructor
  · intro same
    exact page_eq low' low same.1 same.2
  · exact samePage_of_page

section Copy
variable {σ : Type} [Fs.BlockStore σ] {x y : Kernel σ} {image : UInt64 → UInt8} {a off : UInt64} {b : UInt8} {n : Nat}

theorem kernelStore_mapped (loaded : Loaded cr3 s x.machine map) (at_ : map (pageKey v) = some (g, flags))
    (run : (kernelStore v b).run x = some ((), y)) : Loaded cr3 s y.machine map ∧ ∀ v', map (pageKey v') ≠ none →
      viewOf y.machine.mem cr3 v' = if pageKey v' = pageKey v ∧ v'.toNat % 4096 = v.toNat % 4096 then b else viewOf x.machine.mem cr3 v' := by
  obtain ⟨tr, here, place⟩ := loaded.translated at_
  unfold kernelStore kernelAccess at run
  obtain ⟨tr', x', access, run⟩ := run_bind_eq_some.mp run
  rw [run_bind_some (x := get) rfl] at access
  dsimp only at access
  rw [loaded.register, here] at access
  split at access
  · cases access
  obtain ⟨rfl, rfl⟩ := pure_run access
  obtain ⟨m, store, rfl⟩ := onMachine_run run
  rw [setByteAt_entry] at store
  obtain ⟨-, rfl⟩ := Prod.mk.inj (Option.some.inj store)
  have frame : tr.phys / 4096 = g := by omega
  refine ⟨?_, fun v' mapped => loaded.stored_view at_ mapped place⟩
  dsimp only
  rw [frame]
  exact loaded.byte at_

theorem copy_run (loaded : Loaded cr3 s x.machine map) (inside : ∀ j < n, map (pageKey (a + .ofNat j)) ≠ none)
    (run : (forRange (fun j => kernelStore (a + .ofNat j) (image (off + .ofNat j))) 0 n).run x = some ((), y)) :
    Loaded cr3 s y.machine map ∧ ((0 < n → a.toNat + n ≤ 2 ^ 47) → ∀ v, v.toNat < 2 ^ 47 → map (pageKey v) ≠ none →
      viewOf y.machine.mem cr3 v =
        if a.toNat ≤ v.toNat ∧ v.toNat < a.toNat + n then image (off + (v - a)) else viewOf x.machine.mem cr3 v) := by
  have result := forRange_run (fun j (z : Kernel σ) => j ≤ n → Loaded cr3 s z.machine map ∧ ((0 < n → a.toNat + n ≤ 2 ^ 47) → ∀ v, v.toNat < 2 ^ 47 →
    map (pageKey v) ≠ none → viewOf z.machine.mem cr3 v =
      if a.toNat ≤ v.toNat ∧ v.toNat < a.toNat + j then image (off + (v - a)) else viewOf x.machine.mem cr3 v)) ?_ ?_ run (by omega)
  · rwa [Nat.zero_add] at result
  · refine fun _ => ⟨loaded, fun _ v _ _ => ?_⟩
    rw [if_neg (by omega)]
  · intro j z z' _ upper before step more
    obtain ⟨loaded', views⟩ := before (by omega)
    obtain ⟨⟨g, flags⟩, at_⟩ := Option.ne_none_iff_exists'.mp (inside j (by omega))
    obtain ⟨loaded'', stored⟩ := kernelStore_mapped loaded' at_ step
    refine ⟨loaded'', fun fits v low mapped => ?_⟩
    have fits := fits (by omega)
    have index : (UInt64.ofNat j).toNat = j := UInt64.toNat_ofNat_of_lt' (by change j < 2 ^ 64; omega)
    have sum : (a + UInt64.ofNat j).toNat = a.toNat + j := by
      rw [UInt64.toNat_add, index]
      omega
    have same : pageKey v = pageKey (a + .ofNat j) ∧ v.toNat % 4096 = (a + UInt64.ofNat j).toNat % 4096 ↔ v.toNat = a.toNat + j := by
      rw [pageKey_low (by omega) low, sum]
      omega
    rw [stored v mapped, views (fun _ => fits) v low mapped]
    by_cases here : v.toNat = a.toNat + j
    · have offset : v - a = .ofNat j := by
        apply UInt64.toNat_inj.mp
        rw [UInt64.toNat_sub_of_le _ _ (UInt64.le_iff_toNat_le.mpr (by omega)), index]
        omega
      rw [if_pos (same.mpr here), if_pos ⟨by omega, by omega⟩, offset]
    · rw [if_neg (same.not.mpr here)]
      by_cases earlier : a.toNat ≤ v.toNat ∧ v.toNat < a.toNat + j
      · rw [if_pos earlier, if_pos (by omega)]
      · rw [if_neg earlier, if_neg (by omega)]

end Copy

end SwiftBSD.Proof.User
