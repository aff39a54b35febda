import SwiftBSD.Proof.Mm.Page

namespace SwiftBSD.Proof.Mm
open Lib SwiftBSD.Mm

variable {m s t : Machine} {mem : Mem} {pt g i : Nat} {cr3 virt e : UInt64} {b : UInt8} {tr : Translation}

theorem leBytes_leNat (bs : List UInt8) : leBytes bs.length (leNat bs) = bs := by
  induction bs with
  | nil => rfl
  | cons b bs ih =>
      have small := b.toNat_lt
      rw [List.length_cons, leBytes, leNat]
      have head : UInt8.ofNat (b.toNat + 256 * leNat bs) = b := by
        apply UInt8.toNat_inj.mp
        rw [UInt8.toNat_ofNat']
        omega
      have rest : (b.toNat + 256 * leNat bs) / 256 = leNat bs := by omega
      rw [head, rest, ih]

theorem byteOf_putByte (w : UInt64) {k : Nat} (j : Nat) (b : UInt8) (small : k < 8) :
    byteOf (putByte w k b) j = if j = k then b else byteOf w j := by
  have length : ((leBytes 8 w.toNat).set k b).length = 8 := by simp
  have value : (putByte w k b).toNat = leNat ((leBytes 8 w.toNat).set k b) := by
    unfold putByte
    rw [UInt64.toNat_ofNat']
    have := leNat_lt ((leBytes 8 w.toNat).set k b)
    rw [length] at this
    omega
  have bytes : leBytes 8 (putByte w k b).toNat = (leBytes 8 w.toNat).set k b := by
    rw [value]
    have := leBytes_leNat ((leBytes 8 w.toNat).set k b)
    rwa [length] at this
  unfold byteOf
  rw [bytes]
  simp only [List.getD_eq_getElem?_getD, List.getElem?_set, length_leBytes, small]
  by_cases same : j = k
  · simp [same]
  · rw [if_neg (Ne.symm same), if_neg same]

theorem byteAt_setByteAt {phys : Nat} (phys' : Nat) (run : (setByteAt phys b).run s = some ((), t)) :
    byteAt t.mem phys' = if phys' = phys then b else byteAt s.mem phys' := by
  cases run
  unfold byteAt
  dsimp only
  by_cases frame : phys' / 4096 = phys / 4096
  · rw [frame, Function.update_self]
    by_cases word : phys' % 4096 / 8 = phys % 4096 / 8
    · rw [word, Function.update_self, byteOf_putByte _ _ _ (Nat.mod_lt _ (by decide))]
      have : phys' % 8 = phys % 8 ↔ phys' = phys := by omega
      simp only [this]
    · rw [Function.update_of_ne word, if_neg]
      rintro rfl
      exact word rfl
  · rw [Function.update_of_ne frame, if_neg]
    rintro rfl
    exact frame rfl

theorem phys_leafAt (e virt : UInt64) : (leafAt 0 e virt).phys = tableOf e * 4096 + virt.toNat % 4096 := rfl

theorem frame_leafAt (e virt : UInt64) : (leafAt 0 e virt).phys / 4096 = tableOf e := by
  rw [phys_leafAt]
  omega

theorem word_leafAt (e virt : UInt64) : (leafAt 0 e virt).phys % 4096 / 8 = virt.toNat % 4096 / 8 := by
  rw [phys_leafAt]
  omega

theorem toNat_pageWord (virt : UInt64) (small : i < 512) :
    ((virt &&& pageMask) + 8 * UInt64.ofNat i).toNat = 4096 * (virt.toNat / 4096) + 8 * i := by
  have bound := virt.toNat_lt
  have eight : (8 * UInt64.ofNat i).toNat = 8 * i := by
    rw [UInt64.toNat_mul, UInt64.toNat_ofNat']
    change 8 * (i % 2 ^ 64) % 2 ^ 64 = 8 * i
    omega
  rw [UInt64.toNat_add, toNat_pageMask, eight]
  omega

theorem Entry.samePage {virt' : UInt64} (entry : Entry mem cr3 virt pt e) (same : virt'.toNat / 4096 = virt.toNat / 4096) :
    Entry mem cr3 virt' pt e where
  route := by rw [routeFrom_congr same, entry.route]
  entry := by rw [index_congr same, entry.entry]
  present := entry.present

theorem translated_run (run : (translated virt).run s = some (tr, t)) : translate s.mem s.cr3 virt = some tr ∧ t = s := by
  unfold translated at run
  rw [run_bind_some (x := get) rfl] at run
  split at run
  · next here =>
      cases run
      exact ⟨here, rfl⟩
  · cases run

section Words
variable (tables : LowTables s s.cr3) (low : virt.toNat < 2 ^ 47) (entry : Entry s.mem s.cr3 virt pt e)
include tables low entry

theorem translate_pageWord (small : i < 512) : translate s.mem s.cr3 ((virt &&& pageMask) + 8 * UInt64.ofNat i) =
    some (leafAt 0 e ((virt &&& pageMask) + 8 * UInt64.ofNat i)) := by
  have value := toNat_pageWord virt small
  have low' : ((virt &&& pageMask) + 8 * UInt64.ofNat i).toNat < 2 ^ 47 := by omega
  exact tables.translate_entry low' (entry.samePage (by omega))

theorem loadWord_run {w : UInt64} (small : i < 512)
    (run : (loadWord ((virt &&& pageMask) + 8 * UInt64.ofNat i)).run s = some (w, t)) : w = s.mem (tableOf e) i ∧ t = s := by
  unfold loadWord at run
  obtain ⟨tr, s₁, walk, run⟩ := run_bind_eq_some.mp run
  obtain ⟨walk, rfl⟩ := translated_run walk
  rw [translate_pageWord tables low entry small] at walk
  obtain rfl := Option.some.inj walk
  cases run
  have value := toNat_pageWord virt small
  have word : ((virt &&& pageMask) + 8 * UInt64.ofNat i).toNat % 4096 / 8 = i := by omega
  rw [frame_leafAt, word_leafAt, word]
  exact ⟨rfl, rfl⟩

theorem loadWords_run {n : Nat} {ws : List UInt64} (small : i + n ≤ 512)
    (run : (loadWords (virt &&& pageMask) i n).run s = some (ws, t)) :
    (∀ k, k < n → ws.getD k 0 = s.mem (tableOf e) (i + k)) ∧ t = s := by
  induction n generalizing i ws t with
  | zero =>
      cases run
      exact ⟨fun k small => by omega, rfl⟩
  | succ n ih =>
      unfold loadWords at run
      obtain ⟨w, s₁, load, run⟩ := run_bind_eq_some.mp run
      obtain ⟨rfl, rfl⟩ := loadWord_run tables low entry (i := i) (by omega) load
      obtain ⟨rest, s₂, loads, run⟩ := run_bind_eq_some.mp run
      obtain ⟨words, rfl⟩ := ih (i := i + 1) (by omega) loads
      cases run
      refine ⟨fun k small => ?_, rfl⟩
      cases k with
      | zero => rfl
      | succ k =>
          rw [List.getD_cons_succ, words k (by omega)]
          congr 1
          omega

theorem storeWord_run {w : UInt64} (small : i < 512)
    (run : (storeWord ((virt &&& pageMask) + 8 * UInt64.ofNat i) w).run s = some ((), t)) :
    t = setEntry s (tableOf e) i w := by
  unfold storeWord at run
  obtain ⟨tr, s₁, walk, run⟩ := run_bind_eq_some.mp run
  obtain ⟨walk, rfl⟩ := translated_run walk
  rw [translate_pageWord tables low entry small] at walk
  obtain rfl := Option.some.inj walk
  have value := toNat_pageWord virt small
  have word : ((virt &&& pageMask) + 8 * UInt64.ofNat i).toNat % 4096 / 8 = i := by omega
  rw [frame_leafAt, word_leafAt, word] at run
  cases run
  rfl

end Words

def movedEntry (g : Nat) : UInt64 := tableEntry g ||| pgNx

theorem toNat_movedEntry (bound : g ≤ maxPages) : (movedEntry g).toNat = 2 ^ 63 + (4096 * g + 7) := by
  unfold movedEntry
  rw [UInt64.toNat_or, toNat_tableEntry bound, Nat.or_comm]
  have small : 4096 * g + 7 < 2 ^ 63 := by
    unfold maxPages at bound
    omega
  exact (Nat.two_pow_add_eq_or_of_lt small 1).symm

theorem movedEntry_present (bound : g ≤ maxPages) : movedEntry g &&& pgPresent ≠ 0 := by
  have := toNat_movedEntry bound
  rw [Ne, and_pgPresent]
  omega

theorem movedEntry_write (bound : g ≤ maxPages) : movedEntry g &&& pgWrite ≠ 0 := by
  have := toNat_movedEntry bound
  rw [Ne, and_pgWrite]
  omega

theorem movedEntry_user (bound : g ≤ maxPages) : movedEntry g &&& pgUser ≠ 0 := by
  have := toNat_movedEntry bound
  rw [Ne, and_pgUser]
  omega

theorem tableOf_movedEntry (bound : g ≤ maxPages) : tableOf (movedEntry g) = g := by
  unfold tableOf
  rw [toNat_movedEntry bound]
  unfold maxPages at bound
  omega

theorem getOrAllocTable_run {parent a : UInt64} {idx f : Nat} {isPd user : Bool}
    (here : next (s.mem (frameOf parent) idx) = some f)
    (run : (getOrAllocTable parent idx isPd user).run s = some (a, t)) : t = s ∧ frameOf a = f := by
  unfold getOrAllocTable at run
  rw [run_bind_some (x := word _ _) rfl] at run
  unfold next at here
  split at here
  · cases here
  · next present =>
      split at here
      · cases here
      · next small =>
          rw [if_pos present, if_neg fun both => small both.2] at run
          cases run
          exact ⟨rfl, by rw [frameOf_pageMask]; exact Option.some.inj here⟩

theorem tableAt_routeFrom (at_ : tableAt next mem (frameOf cr3) (routeFrom 3 virt) = some pt) :
    ∃ pdpt pd, next (mem (frameOf cr3) (pml4Lookup virt)) = some pdpt ∧ next (mem pdpt (pdptLookup virt)) = some pd ∧
      next (mem pd (pdLookup virt)) = some pt := by
  obtain ⟨pdpt, first, at_⟩ := tableAt_cons_some at_
  obtain ⟨pd, second, at_⟩ := tableAt_cons_some at_
  obtain ⟨pt', third, at_⟩ := tableAt_cons_some at_
  obtain rfl := Option.some.inj at_
  exact ⟨pdpt, pd, first, second, third⟩

theorem vmmMapInCr3_run (at_ : tableAt next s.mem (frameOf cr3) (routeFrom 3 virt) = some pt) (nonzero : pt ≠ 0)
    (run : (vmmMapInCr3 cr3 virt (addrOf g) (pgPresent ||| pgWrite ||| pgUser ||| pgNx)).run s = some ((), t)) :
    t = setEntry s pt (index 0 virt) (movedEntry g) := by
  obtain ⟨pdpt, pd, first, second, third⟩ := tableAt_routeFrom at_
  unfold vmmMapInCr3 at run
  dsimp only at run
  obtain ⟨a₁, s₁, get₁, run₁⟩ := run_bind_eq_some.mp run
  obtain ⟨same₁, at₁⟩ := getOrAllocTable_run first get₁
  rw [same₁] at run₁
  obtain ⟨a₂, s₂, get₂, run₂⟩ := run_bind_eq_some.mp run₁
  obtain ⟨same₂, at₂⟩ := getOrAllocTable_run (by rw [at₁]; exact second) get₂
  rw [same₂] at run₂
  obtain ⟨a₃, s₃, get₃, run₃⟩ := run_bind_eq_some.mp run₂
  obtain ⟨same₃, at₃⟩ := getOrAllocTable_run (by rw [at₂]; exact third) get₃
  rw [same₃] at run₃
  have found : a₃ ≠ 0 := by
    rintro rfl
    exact nonzero at₃.symm
  have value : addrOf g &&& pageMask ||| pgPresent ||| (pgPresent ||| pgWrite ||| pgUser ||| pgNx) &&& 0xFFF = tableEntry g := by
    unfold tableEntry
    rw [UInt64.or_assoc, UInt64.or_assoc (addrOf g &&& pageMask ||| pgPresent), UInt64.or_assoc (addrOf g &&& pageMask)]
    rfl
  rw [if_neg found, value] at run₃
  rw [setWord_run run₃, at₃]
  rfl

/-- The handler has moved the page of `virt` to frame `g`. -/
structure Moved (s t : Machine) (virt : UInt64) (pt g : Nat) (e : UInt64) : Prop where
  bound : g ≤ maxPages
  free : s.bitmap g = false
  bitmap : t.bitmap = Function.update s.bitmap g true
  cr3 : t.cr3 = s.cr3
  table : t.mem pt = Function.update (s.mem pt) (index 0 virt) (movedEntry g)
  page : ∀ i, i < 512 → t.mem g i = s.mem (tableOf e) i
  other : ∀ h, h ≠ pt → h ≠ g → t.mem h = s.mem h

section Handler
variable (tables : LowTables s s.cr3) (low : virt.toNat < 2 ^ 47) (entry : Entry s.mem s.cr3 virt pt e)
include tables low entry

theorem copyBack_run {ws : List UInt64} (apart : ¬LowTable s.mem s.cr3 (tableOf e))
    (run : (forRange (fun i => storeWord ((virt &&& pageMask) + 8 * UInt64.ofNat i) (ws.getD i 0)) 0 512).run s = some ((), t)) :
    t.bitmap = s.bitmap ∧ t.cr3 = s.cr3 ∧ (∀ h, h ≠ tableOf e → t.mem h = s.mem h) ∧
    ∀ i, i < 512 → t.mem (tableOf e) i = ws.getD i 0 := by
  refine forRange_run (fun j u => u.bitmap = s.bitmap ∧ u.cr3 = s.cr3 ∧ (∀ h, h ≠ tableOf e → u.mem h = s.mem h) ∧
    ∀ i, i < j → u.mem (tableOf e) i = ws.getD i 0) ⟨rfl, rfl, fun _ _ => rfl, fun i small => by omega⟩ ?_ run
  rintro j u v - upper ⟨bitmap, cr3, other, done⟩ step
  have kept {f : Nat} (lowTable : LowTable s.mem s.cr3 f) : u.mem f = s.mem f :=
    other f fun same => apart (same ▸ lowTable)
  have same : SameTables s u s.cr3 := .of_apart (fun f used => by rw [bitmap, used]) fun f => kept
  have tables' : LowTables u u.cr3 := by
    rw [cr3]
    exact same.tables tables
  have entry' : Entry u.mem u.cr3 virt pt e := by
    rw [cr3]
    exact entry.keep same low (by rw [kept (entry.lowTable low)])
  rw [storeWord_run tables' low entry' (by omega) step]
  refine ⟨bitmap, cr3, fun h differs => (setEntry_other differs).trans (other h differs), fun i small => ?_⟩
  rw [setEntry_same, Function.update_apply]
  split
  · next same => rw [same]
  · exact done i (by omega)

theorem cowFault_run (nonzero : pt ≠ 0) (run : (cowFault virt).run s = some ((), t)) :
    ∃ g, Moved s t virt pt g e := by
  unfold cowFault at run
  dsimp only at run
  rw [run_bind_some (x := get) rfl] at run
  obtain ⟨a, s₁, alloc, run₁⟩ := run_bind_eq_some.mp run
  cases pageAlloc_run alloc with
  | none => cases run₁
  | @took g bound free =>
      split at run₁
      · cases run₁
      obtain ⟨ws, s₂, loads, run₂⟩ := run_bind_eq_some.mp run₁
      have differ : pt ≠ g := by
        rintro rfl
        rw [tables.taken pt (entry.lowTable low)] at free
        cases free
      have grows {f : Nat} (used : s.bitmap f = true) : Function.update s.bitmap g true f = true := by
        rw [Function.update_apply, used, ite_self]
      -- the new frame is marked; nothing is written yet
      have first : SameTables s
          { s with bitmap := Function.update s.bitmap g true, freePageCount := s.freePageCount - 1 } s.cr3 :=
        .of_apart (fun f => grows) fun _ _ => rfl
      obtain ⟨words, same₂⟩ := loadWords_run (first.tables tables) low (entry.keep first low rfl) (by decide) loads
      rw [same₂] at run₂
      obtain ⟨_, s₃, map, run₃⟩ := run_bind_eq_some.mp run₂
      have samePage : (virt &&& pageMask).toNat / 4096 = virt.toNat / 4096 := by
        rw [toNat_pageMask]
        omega
      have mapped := vmmMapInCr3_run (by rw [routeFrom_congr samePage]; exact entry.route) nonzero map
      rw [index_congr samePage] at mapped
      -- the page is mapped to the new frame, and its words are written there
      have second : SameTables s s₃ s.cr3 := by
        rw [mapped]
        exact tables.sameTables low entry.route (fun f => grows) fun f other _ => setEntry_other other
      have entry' : Entry s₃.mem s.cr3 virt pt (movedEntry g) :=
        ⟨(second.route low).trans entry.route, by rw [mapped, setEntry_same, Function.update_self], movedEntry_present bound⟩
      have cr3 : s₃.cr3 = s.cr3 := by rw [mapped]; rfl
      have noTable : ¬LowTable s₃.mem s₃.cr3 (tableOf (movedEntry g)) := by
        rw [cr3, tableOf_movedEntry bound, second.lowTable]
        intro lowTable
        rw [tables.taken g lowTable] at free
        cases free
      obtain ⟨bitmap, cr3', other, page⟩ := copyBack_run (by rw [cr3]; exact second.tables tables) low
        (by rw [cr3]; exact entry') noTable run₃
      rw [tableOf_movedEntry bound] at other page
      refine ⟨g, bound, free, ?_, cr3'.trans cr3, ?_, fun i small => ?_, fun h notPt notNew => ?_⟩
      · rw [bitmap, mapped]
        rfl
      · rw [other pt differ, mapped, setEntry_same]
      · rw [page i small, words i small, Nat.zero_add]
      · rw [other h notNew, mapped, setEntry_other notPt]

/-- What a store does to the page of `virt`: a writable page is written, any other one is moved first. -/
inductive StoreRun (s : Machine) (virt : UInt64) (b : UInt8) (pt : Nat) (e : UInt64) : Machine → Prop
  | inPlace {t : Machine} (write : e &&& pgWrite ≠ 0)
      (store : (setByteAt (tableOf e * 4096 + virt.toNat % 4096) b).run s = some ((), t)) : StoreRun s virt b pt e t
  | moved {u t : Machine} {g : Nat} (moved : Moved s u virt pt g e)
      (store : (setByteAt (g * 4096 + virt.toNat % 4096) b).run u = some ((), t)) : StoreRun s virt b pt e t

theorem userStore_run (nonzero : pt ≠ 0) (user : e &&& pgUser ≠ 0) (run : (userStore virt b).run s = some ((), t)) : StoreRun s virt b pt e t := by
  unfold userStore at run
  obtain ⟨tr, s₁, walk, run₁⟩ := run_bind_eq_some.mp run
  obtain ⟨here, same₁⟩ := translated_run walk
  rw [tables.translate_entry low entry] at here
  obtain rfl := Option.some.inj here
  have allowed : (leafAt 0 e virt).user = true := by simpa [leafAt] using user
  rw [same₁, allowed, if_neg (by decide)] at run₁
  dsimp only at run₁
  split at run₁
  · next write => exact .inPlace (by simpa [leafAt] using write) run₁
  · obtain ⟨_, u, fault, run₂⟩ := run_bind_eq_some.mp run₁
    obtain ⟨g, moved⟩ := cowFault_run tables low entry nonzero fault
    obtain ⟨tr', u₁, walk', run₃⟩ := run_bind_eq_some.mp run₂
    obtain ⟨here', same₂⟩ := translated_run walk'
    have same : SameTables s u s.cr3 := by
      refine tables.sameTables low entry.route (fun f used => ?_) fun f other lowTable => moved.other f other ?_
      · rw [moved.bitmap, Function.update_apply, used, ite_self]
      · rintro rfl
        have := tables.taken f lowTable
        rw [moved.free] at this
        cases this
    have entry' : Entry u.mem s.cr3 virt pt (movedEntry g) :=
      ⟨(same.route low).trans entry.route, by rw [moved.table, Function.update_self], movedEntry_present moved.bound⟩
    rw [moved.cr3, (same.tables tables).translate_entry low entry'] at here'
    obtain rfl := Option.some.inj here'
    rw [same₂] at run₃
    split at run₃
    · rw [phys_leafAt, tableOf_movedEntry moved.bound] at run₃
      exact .moved moved run₃
    · cases run₃

end Handler

end SwiftBSD.Proof.Mm
