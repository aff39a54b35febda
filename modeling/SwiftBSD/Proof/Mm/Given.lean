import SwiftBSD.Proof.Mm.Active

namespace SwiftBSD.Proof.Mm
open Lib SwiftBSD.Mm

variable {m s t u : Machine} {mem mem' : Mem} {f g h i j d : Nat} {q : List Nat} {cr3 virt virt' e flags phys : UInt64}
  {tr : Translation}

theorem testBit_pageMask {k : Nat} (small : k < 12) : (phys &&& pageMask).toNat.testBit k = false := by
  have zero : pageMask.toNat = (2 ^ 52 - 1) <<< 12 := rfl
  rw [UInt64.toNat_and, Nat.testBit_and, zero, Nat.testBit_shiftLeft]
  simp [show ¬12 ≤ k by omega]

theorem testBit_pteOf {k : Nat} (positive : 0 < k) (small : k < 12) :
    (pteOf phys flags).toNat.testBit k = flags.toNat.testBit k := by
  have one : pgPresent.toNat = 2 ^ 0 := rfl
  have low : (0xFFF : UInt64).toNat = 2 ^ 12 - 1 := rfl
  have high : pgNx.toNat = 2 ^ 63 := rfl
  unfold pteOf
  dsimp only
  split
  · simp only [UInt64.toNat_or, UInt64.toNat_and flags, Nat.testBit_or, Nat.testBit_and flags.toNat, testBit_pageMask small, one, low,
      high, Nat.testBit_two_pow_sub_one, Nat.testBit_two_pow]
    simp [small, show ¬63 = k by omega, show ¬0 = k by omega]
  · simp only [UInt64.toNat_or, UInt64.toNat_and flags, Nat.testBit_or, Nat.testBit_and flags.toNat, testBit_pageMask small, one, low,
      Nat.testBit_two_pow_sub_one, Nat.testBit_two_pow]
    simp [small, show ¬0 = k by omega]

theorem pteOf_write : pteOf phys flags &&& pgWrite = 0 ↔ flags &&& pgWrite = 0 := by
  rw [and_bit (k := 1) rfl, and_bit (k := 1) rfl, testBit_pteOf (by decide) (by decide)]

theorem pteOf_user : pteOf phys flags &&& pgUser = 0 ↔ flags &&& pgUser = 0 := by
  rw [and_bit (k := 2) rfl, and_bit (k := 2) rfl, testBit_pteOf (by decide) (by decide)]

theorem tableOf_pteOf (bound : g ≤ maxPages) : tableOf (pteOf (addrOf g) flags) = g := by
  have small : (pgPresent ||| flags &&& 0xFFF).toNat < 2 ^ 12 := by
    rw [UInt64.toNat_or, UInt64.toNat_and]
    exact Nat.or_lt_two_pow (by decide) (Nat.and_le_right.trans_lt (by decide))
  have value : (addrOf g &&& pageMask ||| pgPresent ||| flags &&& 0xFFF).toNat =
      4096 * g + (pgPresent ||| flags &&& 0xFFF).toNat := by
    have aligned : 4096 * g = 2 ^ 12 * g := rfl
    rw [UInt64.or_assoc, addrOf_pageMask bound, UInt64.toNat_or, toNat_addrOf bound, aligned]
    exact (Nat.two_pow_add_eq_or_of_lt small g).symm
  unfold maxPages at bound
  unfold pteOf tableOf
  dsimp only
  split
  · have high : pgNx.toNat = 2 ^ 63 * 1 := rfl
    have whole : (addrOf g &&& pageMask ||| pgPresent ||| flags &&& 0xFFF).toNat < 2 ^ 63 := by omega
    rw [UInt64.toNat_or, high, Nat.or_comm, ← Nat.two_pow_add_eq_or_of_lt whole, value]
    omega
  · rw [value]
    omega

theorem leafAt_page (d : Nat) (same : virt'.toNat / 4096 = virt.toNat / 4096) : leafAt d e virt' =
    { leafAt d e virt with phys := (leafAt d e virt).phys / 4096 * 4096 + virt'.toNat % 4096 } := by
  have size : pageSize d = 4096 * 512 ^ d := rfl
  have phys : (leafAt d e virt').phys = (leafAt d e virt).phys / 4096 * 4096 + virt'.toNat % 4096 := by
    change _ / _ * pageSize d + _ % pageSize d = (_ / _ * pageSize d + _ % pageSize d) / 4096 * 4096 + _
    rw [size, Nat.mod_mul, Nat.mod_mul, same, Nat.mul_left_comm]
    omega
  unfold leafAt at phys ⊢
  dsimp only at phys ⊢
  rw [phys]

theorem translateFrom_offset (same : virt'.toNat / 4096 = virt.toNat / 4096) : translateFrom mem virt' d f =
    (translateFrom mem virt d f).map fun tr => { tr with phys := tr.phys / 4096 * 4096 + virt'.toNat % 4096 } := by
  induction d generalizing f with
  | zero =>
      rw [translateFrom_zero, translateFrom_zero, index_congr same]
      split
      · rfl
      · rw [leafAt_page 0 same]
        rfl
  | succ d ih =>
      rw [translateFrom_succ, translateFrom_succ, index_congr same]
      split
      · rfl
      split
      · split
        · rw [leafAt_page (d+1) same]
          rfl
        · rfl
      · rw [ih, Option.map_map, Option.map_map]
        rfl

theorem translate_offset (same : virt'.toNat / 4096 = virt.toNat / 4096) (here : translate mem cr3 virt = some tr) :
    translate mem cr3 virt' = some { tr with phys := tr.phys / 4096 * 4096 + virt'.toNat % 4096 } := by
  unfold SwiftBSD.Mm.translate at here ⊢
  rw [translateFrom_offset same, here]
  rfl

theorem samePage_of_page (same : virt'.toNat / 4096 = virt.toNat / 4096) : SamePage virt virt' :=
  ⟨routeFrom_congr same 3, index_congr same 0⟩

theorem page_mask (virt : UInt64) : (virt &&& pageMask).toNat / 4096 = virt.toNat / 4096 := by
  rw [toNat_pageMask]
  omega

theorem samePage_mask : SamePage (virt &&& pageMask) virt' ↔ SamePage virt virt' := by
  unfold SamePage
  rw [routeFrom_congr (page_mask virt), index_congr (page_mask virt)]

theorem onRoute_mask : OnRoute mem cr3 (virt &&& pageMask) h ↔ OnRoute mem cr3 virt h := by
  unfold OnRoute
  rw [routeFrom_congr (page_mask virt)]

theorem FullTables.isTable_taken (tables : FullTables s cr3) (table : IsTable s.mem cr3 f) : s.bitmap f = true := by
  obtain ⟨q, path, at_⟩ := table
  exact (tables.taken q f path at_).1

section Keep
variable (tables : FullTables s cr3) (same : ∀ f, IsTable s.mem cr3 f → t.mem f = s.mem f)
include tables same

omit tables in
theorem tableAt_keep (path : Path 512 512 3 q) :
    tableAt next t.mem (frameOf cr3) q = tableAt next s.mem (frameOf cr3) q := by
  refine tableAt_congr fun q' i rest f split before => ?_
  rw [split] at path
  rw [same f ⟨q', path.left, before⟩]

omit tables in
theorem isTable_keep : IsTable t.mem cr3 f ↔ IsTable s.mem cr3 f := by
  constructor
  · rintro ⟨q, path, at_⟩
    rw [tableAt_keep same path] at at_
    exact ⟨q, path, at_⟩
  · rintro ⟨q, path, at_⟩
    rw [← tableAt_keep same path] at at_
    exact ⟨q, path, at_⟩

omit tables in
theorem onRoute_keep : OnRoute t.mem cr3 virt f ↔ OnRoute s.mem cr3 virt f := by
  unfold OnRoute
  simp only [tableAt_keep same (path_take virt _)]

theorem FullTables.keep (taken : ∀ f, IsTable s.mem cr3 f → t.bitmap f = true) : FullTables t cr3 where
  aligned := tables.aligned
  bound := tables.bound
  tree := by
    refine ⟨fun p q f path path' at_ at' => ?_⟩
    rw [tableAt_keep same path] at at_
    rw [tableAt_keep same path'] at at'
    exact tables.tree.unique p q f path path' at_ at'
  entries := by
    intro q f i g path at_ leads
    rw [tableAt_keep same path.left] at at_
    rw [same f ⟨q, path.left, at_⟩] at leads ⊢
    exact tables.entries q f i g path at_ leads
  small := by
    intro q f i path short at_
    rw [tableAt_keep same path.left] at at_
    rw [same f ⟨q, path.left, at_⟩]
    exact tables.small q f i path short at_
  taken := by
    intro q f path at_
    rw [tableAt_keep same path] at at_
    exact ⟨taken f ⟨q, path, at_⟩, (tables.taken q f path at_).2⟩

end Keep

theorem OnRoute.isTable (on : OnRoute mem cr3 virt f) : IsTable mem cr3 f := by
  obtain ⟨j, -, at_⟩ := on
  exact ⟨_, path_take virt j, at_⟩

/-- The page of `virt` has got the frame `g` by the entry `e`. -/
structure Given (s t : Machine) (virt : UInt64) (g : Nat) (e : UInt64) : Prop where
  tables : FullTables t s.cr3
  register : t.cr3 = s.cr3
  last : t.lastPhysPage = s.lastPhysPage
  small : g < s.lastPhysPage
  free : s.bitmap g = false
  first : ∀ i < g, s.bitmap i = true
  taken : t.bitmap g = true
  frame : tableOf e = g
  notTable : ¬IsTable t.mem s.cr3 g
  here : ∀ virt', SamePage virt virt' →
    translate t.mem s.cr3 virt' = some (Translation.inHalf (decide (index 3 virt < 256)) (leafAt 0 e virt'))
  others : ∀ virt', ¬SamePage virt virt' →
    (translate t.mem s.cr3 virt').map Translation.access = (translate s.mem s.cr3 virt').map Translation.access
  same : ∀ h, h ≠ g → ¬OnRoute t.mem s.cr3 virt h → t.mem h = s.mem h
  keeps : ∀ h, IsTable s.mem s.cr3 h → IsTable t.mem s.cr3 h
  adds : ∀ h, IsTable t.mem s.cr3 h → IsTable s.mem s.cr3 h ∨ s.bitmap h = false
  grows : ∀ h, s.bitmap h = true → t.bitmap h = true
  card : (freeFrames s).card ≤ (freeFrames t).card + 4

/-- A frame was taken, and only that frame was written. -/
structure Fresh (s t : Machine) (g : Nat) : Prop where
  small : g < s.lastPhysPage
  free : s.bitmap g = false
  first : ∀ i < g, s.bitmap i = true
  bitmap : t.bitmap = Function.update s.bitmap g true
  register : t.cr3 = s.cr3
  last : t.lastPhysPage = s.lastPhysPage
  same : ∀ h, h ≠ g → t.mem h = s.mem h

theorem Fresh.bounded (fresh : Fresh s t g) : g ≤ maxPages := fresh.small.le.trans s.bounded

theorem Fresh.grows (fresh : Fresh s t g) (used : s.bitmap h = true) : t.bitmap h = true := by
  rw [fresh.bitmap, Function.update_apply, used, ite_self]

theorem Fresh.notTable (fresh : Fresh s t g) (tables : FullTables s cr3) (table : IsTable s.mem cr3 f) : f ≠ g := by
  rintro rfl
  have free := fresh.free
  rw [tables.isTable_taken table] at free
  cases free

theorem Fresh.tables (fresh : Fresh s t g) (tables : FullTables s cr3) : FullTables t cr3 := by
  refine tables.keep (fun f table => fresh.same f ?_) fun f table => fresh.grows (tables.isTable_taken table)
  exact fresh.notTable tables table

theorem Fresh.card (fresh : Fresh s t g) : (freeFrames s).card ≤ (freeFrames t).card + 1 := by
  have subset : freeFrames s ⊆ insert g (freeFrames t) := by
    intro f member
    unfold freeFrames at member ⊢
    rw [Finset.mem_filter] at member
    rw [Finset.mem_insert, Finset.mem_filter]
    by_cases same : f = g
    · exact .inl same
    · right
      rw [fresh.last, fresh.bitmap, Function.update_of_ne same]
      exact member
  exact (Finset.card_le_card subset).trans (Finset.card_insert_le _ _)

theorem pageAlloc_fresh {a : UInt64} (run : pageAlloc.run s = some (a, t)) (success : a ≠ 0) : ∃ g, Fresh s t g ∧ a = addrOf g ∧ t.mem = s.mem := by
  cases pageAlloc_alloc run with
  | none => exact (success rfl).elim
  | took small free first => exact ⟨_, ⟨small, free, first, rfl, rfl, rfl, fun _ _ => rfl⟩, rfl, rfl⟩

theorem vmmAllocPage_fresh {a : UInt64} (run : vmmAllocPage.run s = some (a, t)) (success : a ≠ 0) :
    ∃ g, Fresh s t g ∧ a = addrOf g ∧ ∀ i, i < 512 → t.mem g i = 0 := by
  unfold vmmAllocPage at run
  obtain ⟨phys, s₁, alloc, run⟩ := run_bind_eq_some.mp run
  split at run
  · obtain ⟨rfl, -⟩ := pure_run run
    exact (success rfl).elim
  next nonzero =>
  obtain ⟨g, fresh, rfl, same⟩ := pageAlloc_fresh alloc nonzero
  obtain ⟨_, s₂, zero, run⟩ := run_bind_eq_some.mp run
  obtain ⟨rfl, rfl⟩ := pure_run run
  obtain ⟨register, last, bitmap, other, words⟩ := fill_run zero
  rw [frameOf_addrOf fresh.bounded] at other words
  refine ⟨g, ⟨fresh.small, fresh.free, fresh.first, bitmap.trans fresh.bitmap, register.trans fresh.register,
    last.trans fresh.last, fun h differ => (other h differ).trans (fresh.same h differ)⟩, rfl, fun i small => ?_⟩
  rw [words, if_pos small]

theorem Fresh.given_mapped (fresh : Fresh s t g) (tables : FullTables s s.cr3)
    (mapped : Mapped t u s.cr3 (virt &&& pageMask) (pteOf (addrOf g) flags)) :
    Given s u virt g (pteOf (addrOf g) flags) ∧ u.mem g = t.mem g := by
  have card := fresh.card
  have keep (f : Nat) (table : IsTable s.mem s.cr3 f) : t.mem f = s.mem f := fresh.same f (fresh.notTable tables table)
  have newCard := mapped.card
  have old (h : Nat) (table : IsTable u.mem s.cr3 h) : IsTable s.mem s.cr3 h ∨ t.bitmap h = false := by
    obtain ⟨q, path, at_⟩ := table
    rcases mapped.adds q h path at_ with before | ⟨free, -⟩
    · rw [tableAt_keep keep path] at before
      exact .inl ⟨q, path, before⟩
    · exact .inr free
  have taken : t.bitmap g = true := by rw [fresh.bitmap, Function.update_self]
  have notTable : ¬IsTable u.mem s.cr3 g := by
    intro table
    rcases old g table with before | free
    · exact fresh.notTable tables before rfl
    · rw [taken] at free
      cases free
  refine ⟨?_, mapped.same g fun on => notTable on.isTable⟩
  exact {
    tables := mapped.tables
    register := mapped.register.trans fresh.register
    last := mapped.last.trans fresh.last
    small := fresh.small
    free := fresh.free
    first := fresh.first
    taken := mapped.grows g taken
    frame := tableOf_pteOf fresh.bounded
    notTable := notTable
    here := by
      intro virt' same
      have half : index 3 virt' = index 3 virt := by
        have route := same.1
        simp only [routeFrom, List.cons.injEq] at route
        exact route.1
      rw [mapped.tables.translate_walk, mapped.here virt' (samePage_mask.mpr same), half]
      unfold leaf
      rw [if_neg (pteOf_present _ _)]
      rfl
    others := by
      intro virt' other
      rw [mapped.others virt' (fun same => other (samePage_mask.mp same)), tables.translate_same keep]
    same := by
      intro h notNew off
      rw [mapped.same h (fun on => off (onRoute_mask.mp on)), fresh.same h notNew]
    keeps := by
      intro h table
      obtain ⟨q, path, at_⟩ := table
      rw [← tableAt_keep keep path] at at_
      exact ⟨q, path, mapped.keeps q h path at_⟩
    adds := by
      intro h table
      rcases old h table with before | free
      · exact .inl before
      · right
        by_contra used
        rw [fresh.grows (Bool.not_eq_false _ ▸ used)] at free
        cases free
    grows := fun h used => mapped.grows h (fresh.grows used)
    card := by omega }

theorem Fresh.given (fresh : Fresh s t g) (tables : FullTables s s.cr3) (reserved : s.bitmap 0 = true)
    (enough : 4 ≤ (freeFrames s).card) (run : (vmmMapInCr3 s.cr3 (virt &&& pageMask) (addrOf g) flags).run t = some ((), u)) :
    Given s u virt g (pteOf (addrOf g) flags) ∧ u.mem g = t.mem g := by
  have card := fresh.card
  exact fresh.given_mapped tables (vmmMapInCr3_mapped (fresh.tables tables) (fresh.grows reserved) (by omega) run)

theorem Given.write (given : Given s t virt g e) (bitmap : u.bitmap = t.bitmap) (register : u.cr3 = t.cr3)
    (last : u.lastPhysPage = t.lastPhysPage) (same : ∀ h, h ≠ g → u.mem h = t.mem h) : Given s u virt g e := by
  have keep (f : Nat) (table : IsTable t.mem s.cr3 f) : u.mem f = t.mem f := same f fun here => given.notTable (here ▸ table)
  have isTable {f : Nat} : IsTable u.mem s.cr3 f ↔ IsTable t.mem s.cr3 f := isTable_keep keep
  exact {
    tables := given.tables.keep keep fun f table => by rw [bitmap, given.tables.isTable_taken table]
    register := register.trans given.register
    last := last.trans given.last
    small := given.small
    free := given.free
    first := given.first
    taken := by rw [bitmap, given.taken]
    frame := given.frame
    notTable := fun table => given.notTable (isTable.mp table)
    here := fun virt' page => by rw [given.tables.translate_same keep, given.here virt' page]
    others := fun virt' other => by rw [given.tables.translate_same keep, given.others virt' other]
    same := fun h notNew off => by
      rw [same h notNew, given.same h notNew fun on => off ((onRoute_keep keep).mpr on)]
    keeps := fun h table => isTable.mpr (given.keeps h table)
    adds := fun h table => given.adds h (isTable.mp table)
    grows := fun h used => by rw [bitmap, given.grows h used]
    card := by
      have sameFree : freeFrames u = freeFrames t := by
        unfold freeFrames
        rw [last, bitmap]
      rw [sameFree]
      exact given.card }

structure Unmapped (s t : Machine) (virt : UInt64) : Prop where
  tables : FullTables t s.cr3
  register : t.cr3 = s.cr3
  isTable : ∀ h, IsTable t.mem s.cr3 h ↔ IsTable s.mem s.cr3 h
  here : ∀ virt', SamePage virt virt' → translate t.mem s.cr3 virt' = none
  others : ∀ virt', ¬SamePage virt virt' → translate t.mem s.cr3 virt' = translate s.mem s.cr3 virt'
  frames : ∀ h, ¬IsTable s.mem s.cr3 h → t.mem h = s.mem h

theorem FullTables.isTable_lt (tables : FullTables s cr3) (table : IsTable s.mem cr3 f) : f < 2 ^ 40 := by
  obtain ⟨q, path, at_⟩ := table
  induction q using List.reverseRecOn with
  | nil =>
      obtain rfl := Option.some.inj at_
      have bound := tables.bound
      unfold frameOf
      omega
  | append_singleton q i _ =>
      rw [tableAt_snoc] at at_
      obtain ⟨h, before, leads⟩ := Option.bind_eq_some_iff.mp at_
      have bound := (tables.entries q h i f path before leads).bound
      obtain ⟨-, -, rfl⟩ := next_some leads
      unfold frameOf
      omega

theorem FullTables.translate_small (tables : FullTables s cr3) (here : translate s.mem cr3 virt = some tr) (level : tr.level = 0) :
    ∃ pt, tableAt next s.mem (frameOf cr3) (routeFrom 3 virt) = some pt ∧ tr.phys / 4096 = tableOf (s.mem pt (index 0 virt)) := by
  rw [tables.translate_walk] at here
  obtain ⟨tr', found, rfl⟩ := Option.map_eq_some_iff.mp here
  obtain ⟨j, pt, small, at_, ends, -⟩ := walk_end s.mem virt 3 (frameOf cr3)
  rw [ends] at found
  unfold leaf at found
  dsimp only at found
  split at found
  · cases found
  split at found
  · obtain rfl := Option.some.inj found
    have three : j = 3 := by
      change 3 - j = 0 at level
      omega
    subst three
    rw [take_three] at at_
    exact ⟨pt, at_, frame_leafAt _ _⟩
  · cases found

theorem FullTables.unmap (tables : FullTables s s.cr3) (here : translate s.mem s.cr3 virt = some tr) (level : tr.level = 0)
    (notTable : ¬IsTable s.mem s.cr3 (tr.phys / 4096)) :
    ∃ t, (vmmUnmap s.cr3 virt).run s = some ((), t) ∧ Unmapped s t virt := by
  obtain ⟨pt, at_, frame⟩ := tables.translate_small here level
  obtain ⟨a, last, rfl⟩ := lastTable_leaf at_
  obtain ⟨t, run⟩ := vmmUnmap_total s.cr3 virt s
  have done := vmmUnmap_run run
  rw [last] at done
  obtain ⟨u, freed, rfl⟩ := done
  -- the frame that is given back is not a table
  have freedTables : FullTables u s.cr3 := by
    refine tables.keep (fun f _ => by rw [freed.mem]) fun f table => ?_
    rw [freed.others, tables.isTable_taken table]
    rintro rfl
    apply notTable
    have small := tables.isTable_lt table
    rw [frame, tableOf_eq, Nat.mod_eq_of_lt small]
    exact table
  have at' : tableAt next u.mem (frameOf s.cr3) (routeFrom 3 virt) = some (frameOf a) := by rw [freed.mem, at_]
  have now := freedTables.setEntry (i := index 0 virt) (e := 0) at'
  refine ⟨_, run, ?_⟩
  exact {
    tables := now
    register := freed.register
    isTable := by
      intro h
      unfold IsTable
      constructor
      · rintro ⟨q, path, there⟩
        rw [freedTables.tableAt_setEntry at' path, freed.mem] at there
        exact ⟨q, path, there⟩
      · rintro ⟨q, path, there⟩
        refine ⟨q, path, ?_⟩
        rw [freedTables.tableAt_setEntry at' path, freed.mem, there]
    here := by
      intro virt' same
      rw [now.translate_walk, walk_setEntry_here freedTables at' same]
      rfl
    others := by
      intro virt' other
      rw [now.translate_walk, walk_setEntry_other freedTables at' other, freed.mem, ← tables.translate_walk]
    frames := by
      intro h noTable
      rw [setEntry_other, freed.mem]
      rintro rfl
      exact noTable ⟨_, path_routeFrom (index_lt 3 virt), at_⟩ }

theorem toNat_pageWord_mod (virt : UInt64) (small : i < 512) :
    ((virt &&& pageMask) + 8 * UInt64.ofNat i).toNat % 4096 = 8 * i ∧
    ((virt &&& pageMask) + 8 * UInt64.ofNat i).toNat / 4096 = virt.toNat / 4096 := by
  have value := toNat_pageWord virt small
  omega

theorem run_translated (here : translate s.mem s.cr3 virt = some tr) : (translated virt).run s = some (tr, s) := by
  unfold translated
  rw [run_bind_some (x := get) rfl, here]
  rfl

section Words
variable (here : translate s.mem s.cr3 virt = some tr)
include here

theorem translated_word (small : i < 512) : ∃ tr', (translated ((virt &&& pageMask) + 8 * UInt64.ofNat i)).run s = some (tr', s) ∧
    tr'.phys / 4096 = tr.phys / 4096 ∧ tr'.phys % 4096 / 8 = i := by
  obtain ⟨offset, page⟩ := toNat_pageWord_mod virt small
  refine ⟨_, run_translated (translate_offset page here), ?_⟩
  dsimp only
  rw [offset]
  omega

theorem loadWords_succeeds {n : Nat} (small : i + n ≤ 512) : ∃ ws, (loadWords (virt &&& pageMask) i n).run s = some (ws, s) ∧
    ∀ k, k < n → ws.getD k 0 = s.mem (tr.phys / 4096) (i + k) := by
  induction n generalizing i with
  | zero => exact ⟨[], rfl, fun k small => by omega⟩
  | succ n ih =>
      obtain ⟨tr', walk, frame, offset⟩ := translated_word here (i := i) (by omega)
      obtain ⟨ws, rest, words⟩ := ih (i := i + 1) (by omega)
      refine ⟨s.mem (tr.phys / 4096) i :: ws, ?_, fun k small => ?_⟩
      · unfold loadWords loadWord
        rw [run_bind_some (a := s.mem (tr.phys / 4096) i), run_bind_some rest]
        · rfl
        · rw [run_bind_some walk, run_bind_some (x := get) rfl, frame, offset]
          rfl
      · cases k with
        | zero => rfl
        | succ k =>
            rw [List.getD_cons_succ, words k (by omega)]
            congr 1
            omega

theorem storeWord_succeeds (small : i < 512) (w : UInt64) :
    (storeWord ((virt &&& pageMask) + 8 * UInt64.ofNat i) w).run s = some ((), setEntry s (tr.phys / 4096) i w) := by
  obtain ⟨tr', walk, frame, offset⟩ := translated_word here small
  unfold storeWord
  rw [run_bind_some walk, frame, offset]
  rfl

end Words

theorem storeWords_succeeds (tables : FullTables s s.cr3) (here : translate s.mem s.cr3 virt = some tr)
    (notTable : ¬IsTable s.mem s.cr3 (tr.phys / 4096)) (words : Nat → UInt64) :
    ∃ t, (forRange (fun i => storeWord ((virt &&& pageMask) + 8 * UInt64.ofNat i) (words i)) 0 512).run s = some ((), t) ∧
      t.bitmap = s.bitmap ∧ t.cr3 = s.cr3 ∧ t.lastPhysPage = s.lastPhysPage ∧ (∀ h, h ≠ tr.phys / 4096 → t.mem h = s.mem h) ∧
      ∀ i, i < 512 → t.mem (tr.phys / 4096) i = words i := by
  refine forRange_succeeds (fun j (u : Machine) => u.bitmap = s.bitmap ∧ u.cr3 = s.cr3 ∧ u.lastPhysPage = s.lastPhysPage ∧
    (∀ h, h ≠ tr.phys / 4096 → u.mem h = s.mem h) ∧ ∀ i, i < j → u.mem (tr.phys / 4096) i = words i)
    ⟨rfl, rfl, rfl, fun _ _ => rfl, fun i small => by omega⟩ ?_
  rintro j u - upper ⟨bitmap, register, last, other, done⟩
  have now : translate u.mem u.cr3 virt = some tr := by
    rw [register, tables.translate_same (fun f table => other f fun same => notTable (same ▸ table)), here]
  refine ⟨_, storeWord_succeeds now (by omega) (words j), bitmap, register, last,
    fun h differs => (setEntry_other differs).trans (other h differs), fun i small => ?_⟩
  rw [setEntry_same, Function.update_apply]
  split
  · next same => rw [same]
  · exact done i (by omega)

theorem Given.translated_page (given : Given s t virt g e) (page : virt'.toNat / 4096 = virt.toNat / 4096) :
    ∃ tr, translate t.mem t.cr3 virt' = some tr ∧ tr.phys / 4096 = g := by
  refine ⟨_, by rw [given.register]; exact given.here virt' (samePage_of_page page), ?_⟩
  change (leafAt 0 e virt').phys / 4096 = g
  rw [frame_leafAt, given.frame]

theorem Given.translated (given : Given s t virt g e) : ∃ tr, translate t.mem t.cr3 virt = some tr ∧ tr.phys / 4096 = g :=
  given.translated_page rfl

def moveFlags : UInt64 := pgPresent ||| pgWrite ||| pgUser ||| pgNx

section Cow
variable (tables : FullTables s s.cr3) (reserved : s.bitmap 0 = true) (enough : 4 ≤ (freeFrames s).card)
  (present : translate s.mem s.cr3 virt = some tr)
include tables reserved enough present

theorem cowFault_succeeds : ∃ t g, (cowFault virt).run s = some ((), t) ∧ Given s t virt g (pteOf (addrOf g) moveFlags) ∧
    ∀ i, i < 512 → t.mem g i = s.mem (tr.phys / 4096) i := by
  obtain ⟨a, s₁, alloc, nonzero⟩ := pageAlloc_succeeds reserved (by omega : 0 < (freeFrames s).card)
  obtain ⟨g, fresh, rfl, same⟩ := pageAlloc_fresh alloc nonzero
  obtain ⟨ws, load, words⟩ := loadWords_succeeds (s := s₁) (i := 0) (n := 512) (by rw [same, fresh.register]; exact present) (by decide)
  obtain ⟨s₂, map⟩ := vmmMapInCr3_total s.cr3 (virt &&& pageMask) (addrOf g) moveFlags s₁
  obtain ⟨given, -⟩ := fresh.given tables reserved enough map
  obtain ⟨tr', now, frame⟩ := given.translated
  obtain ⟨t, store, bitmap, register, last, other, page⟩ := storeWords_succeeds (by rw [given.register]; exact given.tables) now
    (by rw [frame, given.register]; exact given.notTable) fun i => ws.getD i 0
  rw [frame] at other page
  refine ⟨t, g, ?_, given.write bitmap register last other, fun i small => ?_⟩
  · unfold cowFault
    dsimp only
    rw [run_bind_some (x := get) rfl, run_bind_some alloc, if_neg nonzero, run_bind_some load]
    exact run_bind_eq_some.mpr ⟨(), s₂, map, store⟩
  · rw [page i small, words i small, same, Nat.zero_add]

end Cow

end SwiftBSD.Proof.Mm
