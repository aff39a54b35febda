import SwiftBSD.Proof.Mm.CowFault

namespace SwiftBSD.Proof.Mm
open Lib SwiftBSD.Mm

variable {m t u : Machine} {mem : Mem} {spaces : List UInt64} {views : List View} {k k₀ pt f g : Nat}
  {cr3 virt e child : UInt64} {b : UInt8} {tr : Translation}

structure UserEntry (mem : Mem) (cr3 virt : UInt64) (pt : Nat) (e : UInt64) : Prop extends Entry mem cr3 virt pt e where
  low : virt.toNat < 2 ^ 47
  user : e &&& pgUser ≠ 0

structure Isolated (m : Machine) (spaces : List UInt64) : Prop where
  zero : m.bitmap 0 = true
  tables : ∀ (k : Nat) cr3, spaces[k]? = some cr3 → LowTables m cr3
  nonzero : ∀ (k : Nat) cr3 f, spaces[k]? = some cr3 → LowTable m.mem cr3 f → f ≠ 0
  forest : ∀ (k k' : Nat) cr3 cr3' f, spaces[k]? = some cr3 → spaces[k']? = some cr3' → LowTable m.mem cr3 f →
    LowTable m.mem cr3' f → k = k'
  data : ∀ (k : Nat) cr3 virt pt e, spaces[k]? = some cr3 → UserEntry m.mem cr3 virt pt e →
    m.bitmap (tableOf e) = true ∧ ∀ (k' : Nat) cr3', spaces[k']? = some cr3' → ¬LowTable m.mem cr3' (tableOf e)
  exclusive : ∀ (k k' : Nat) cr3 cr3' virt virt' pt pt' e e', spaces[k]? = some cr3 → spaces[k']? = some cr3' →
    UserEntry m.mem cr3 virt pt e → UserEntry m.mem cr3' virt' pt' e' → e &&& pgWrite ≠ 0 → tableOf e = tableOf e' →
    k = k' ∧ virt.toNat / 4096 = virt'.toNat / 4096

structure Sees (m : Machine) (spaces : List UInt64) (views : List View) : Prop where
  length : views.length = spaces.length
  bytes : ∀ (k : Nat) cr3 virt pt e, spaces[k]? = some cr3 → UserEntry m.mem cr3 virt pt e →
    byteAt m.mem (tableOf e * 4096 + virt.toNat % 4096) = views.getD k (fun _ => 0) virt

theorem byteAt_eq {offset : Nat} (f : Nat) (small : offset < 4096) :
    byteAt mem (f * 4096 + offset) = byteOf (mem f (offset / 8)) (offset % 8) := by
  have frame : (f * 4096 + offset) / 4096 = f := by omega
  have rest : (f * 4096 + offset) % 4096 = offset := by omega
  have byte : (f * 4096 + offset) % 8 = offset % 8 := by omega
  unfold byteAt
  rw [frame, rest, byte]

theorem byteAt_frame {mem' : Mem} {offset : Nat} (small : offset < 4096) (same : mem' f = mem f) :
    byteAt mem' (f * 4096 + offset) = byteAt mem (f * 4096 + offset) := by
  rw [byteAt_eq f small, byteAt_eq f small, same]

theorem byteAt_copy {mem' : Mem} {offset : Nat} (small : offset < 4096) (same : ∀ i, i < 512 → mem' g i = mem f i) :
    byteAt mem' (g * 4096 + offset) = byteAt mem (f * 4096 + offset) := by
  rw [byteAt_eq g small, byteAt_eq f small, same _ (by omega)]

/-- The entries of `t` come from entries of `m` for the same frames, with no more rights. -/
structure Weakened (m t : Machine) (spaces : List UInt64) : Prop where
  same : ∀ (k : Nat) cr3, spaces[k]? = some cr3 → SameTables m t cr3
  grows : ∀ f, m.bitmap f = true → t.bitmap f = true
  entries : ∀ (k : Nat) cr3 virt pt e, spaces[k]? = some cr3 → UserEntry t.mem cr3 virt pt e →
    ∃ e₀, UserEntry m.mem cr3 virt pt e₀ ∧ tableOf e = tableOf e₀ ∧ (e &&& pgWrite ≠ 0 → e₀ &&& pgWrite ≠ 0)

theorem Isolated.weaken (isolated : Isolated m spaces) (weak : Weakened m t spaces) : Isolated t spaces where
  zero := weak.grows 0 isolated.zero
  tables := fun k cr3 here => (weak.same k cr3 here).tables (isolated.tables k cr3 here)
  nonzero := fun k cr3 f here low => isolated.nonzero k cr3 f here ((weak.same k cr3 here).lowTable.mp low)
  forest := fun k k' cr3 cr3' f here here' low low' =>
    isolated.forest k k' cr3 cr3' f here here' ((weak.same k cr3 here).lowTable.mp low)
      ((weak.same k' cr3' here').lowTable.mp low')
  data := by
    intro k cr3 virt pt e here entry
    obtain ⟨e₀, entry₀, frame, -⟩ := weak.entries k cr3 virt pt e here entry
    obtain ⟨used, apart⟩ := isolated.data k cr3 virt pt e₀ here entry₀
    rw [frame]
    refine ⟨weak.grows _ used, fun k' cr3' here' low => apart k' cr3' here' ?_⟩
    exact (weak.same k' cr3' here').lowTable.mp low
  exclusive := by
    intro k k' cr3 cr3' virt virt' pt pt' e e' here here' entry entry' write frame
    obtain ⟨e₀, entry₀, frame₀, write₀⟩ := weak.entries k cr3 virt pt e here entry
    obtain ⟨e₀', entry₀', frame₀', -⟩ := weak.entries k' cr3' virt' pt' e' here' entry'
    exact isolated.exclusive k k' cr3 cr3' virt virt' pt pt' e₀ e₀' here here' entry₀ entry₀' (write₀ write)
      (by rw [← frame₀, ← frame₀', frame])

theorem Sees.weaken (sees : Sees m spaces views) (weak : Weakened m t spaces)
    (frames : ∀ (k : Nat) cr3 virt pt e, spaces[k]? = some cr3 → UserEntry m.mem cr3 virt pt e → t.mem (tableOf e) = m.mem (tableOf e)) :
    Sees t spaces views where
  length := sees.length
  bytes := by
    intro k cr3 virt pt e here entry
    obtain ⟨e₀, entry₀, frame, -⟩ := weak.entries k cr3 virt pt e here entry
    rw [frame, byteAt_frame (Nat.mod_lt _ (by decide)) (frames k cr3 virt pt e₀ here entry₀)]
    exact sees.bytes k cr3 virt pt e₀ here entry₀

theorem tableOf_cow : tableOf (cow e) = tableOf e := by rw [tableOf_eq, tableOf_eq, frameOf_cow]

theorem cow_write (write : cow e &&& pgWrite ≠ 0) : e &&& pgWrite ≠ 0 := by
  unfold cow at write
  split at write
  · rw [UInt64.and_assoc] at write
    exact (write UInt64.and_zero).elim
  · exact write

theorem cow_readOnly (present : e &&& pgPresent ≠ 0) (user : e &&& pgUser ≠ 0) : cow e &&& pgWrite = 0 := by
  unfold cow
  rw [if_pos ⟨present, user⟩, UInt64.and_assoc]
  exact UInt64.and_zero

theorem UserEntry.unmark (entry : UserEntry t.mem cr3 virt pt e) (same : SameTables m t cr3)
    (table : t.mem pt = m.mem pt ∨ t.mem pt = cowTable (m.mem pt)) :
    ∃ e₀, UserEntry m.mem cr3 virt pt e₀ ∧ (e = e₀ ∨ e = cow e₀) := by
  have route := (same.route entry.low).symm.trans entry.route
  rcases table with equal | marked
  · refine ⟨e, ⟨⟨route, ?_, entry.present⟩, entry.low, entry.user⟩, .inl rfl⟩
    rw [← equal]
    exact entry.entry
  · have value : e = cow (m.mem pt (index 0 virt)) := by
      rw [← entry.entry, marked, cowTable, if_pos (index_lt 0 virt)]
    refine ⟨m.mem pt (index 0 virt), ⟨⟨route, rfl, ?_⟩, entry.low, ?_⟩, .inr value⟩
    · rw [← cow_present, ← value]
      exact entry.present
    · rw [← cow_user, ← value]
      exact entry.user

section CloneMarked
variable (isolated : Isolated m spaces) (here : spaces[k₀]? = some cr3) (marked : CloneMarked m t (frameOf cr3))
include isolated here marked

theorem CloneMarked.sameTables : SameTables m t cr3 :=
  ⟨marked.grows, fun _ _ path short at_ => marked.upper (isolated.tables k₀ cr3 here) path short at_⟩

theorem CloneMarked.others {cr3' : UInt64} (here' : spaces[k]? = some cr3') (other : k ≠ k₀) (low : LowTable m.mem cr3' f) :
    t.mem f = m.mem f := by
  refine (marked.old f ((isolated.tables k cr3' here').taken f low)).resolve_right fun changed => ?_
  obtain ⟨q, path, -, at_⟩ := changed.1
  exact other (isolated.forest k k₀ cr3' cr3 f here' here low ⟨q, path, at_⟩)

theorem CloneMarked.weakened : Weakened m t spaces where
  grows := marked.grows
  same := by
    intro k cr3' here'
    by_cases parent : k = k₀
    · subst parent
      obtain rfl := Option.some.inj (here.symm.trans here')
      exact marked.sameTables isolated here
    · exact .of_apart marked.grows fun f low => marked.others isolated here here' parent low
  entries := by
    intro k cr3' virt pt e here' entry
    by_cases parent : k = k₀
    · subst parent
      obtain rfl := Option.some.inj (here.symm.trans here')
      have same := marked.sameTables isolated here
      have low : LowTable m.mem cr3 pt := same.lowTable.mp (entry.lowTable entry.low)
      have table := (marked.old pt ((isolated.tables k cr3 here).taken pt low)).imp_right And.right
      obtain ⟨e₀, entry₀, rfl | rfl⟩ := entry.unmark same table
      · exact ⟨e, entry₀, rfl, id⟩
      · exact ⟨e₀, entry₀, tableOf_cow, cow_write⟩
    · have same : SameTables m t cr3' := .of_apart marked.grows fun f low => marked.others isolated here here' parent low
      have low : LowTable m.mem cr3' pt := same.lowTable.mp (entry.lowTable entry.low)
      obtain ⟨e₀, entry₀, rfl | rfl⟩ := entry.unmark same (.inl (marked.others isolated here here' parent low))
      · exact ⟨e, entry₀, rfl, id⟩
      · exact ⟨e₀, entry₀, tableOf_cow, cow_write⟩

theorem CloneMarked.frames {cr3' : UInt64} (here' : spaces[k]? = some cr3') (entry : UserEntry m.mem cr3' virt pt e) :
    t.mem (tableOf e) = m.mem (tableOf e) := by
  obtain ⟨used, apart⟩ := isolated.data k cr3' virt pt e here' entry
  refine (marked.old _ used).resolve_right fun changed => ?_
  obtain ⟨q, path, -, at_⟩ := changed.1
  exact apart k₀ cr3 here ⟨q, path, at_⟩

end CloneMarked

theorem Copy.leads {n d p c i : Nat} {mem mem' : Mem} (copy : Copy n (d+1) mem mem' p c) (small : i < n)
    (here : next (mem' c i) = some g) :
    ∃ f, next (mem p i) = some f ∧ g ≤ maxPages ∧ mem' c i = tableEntry g ∧ Copy 512 d mem mem' f g := by
  have entry := copy i small
  cases parent : next (mem p i) with
  | none =>
      rw [parent] at entry
      have none' : next (mem' c i) = none := by
        rw [entry]
        split
        · rfl
        · exact parent
      rw [none'] at here
      cases here
  | some f =>
      rw [parent] at entry
      obtain ⟨g', bound, entry, below⟩ := entry
      have same := here
      rw [entry, next_tableEntry bound] at same
      obtain rfl := Option.some.inj same
      exact ⟨f, rfl, bound, entry, below⟩

theorem Copy.plains {n d p c : Nat} {mem mem' : Mem} (copy : Copy n d mem mem' p c) : Plains n d mem' c := by
  induction d generalizing n p c with
  | zero =>
      intro q f i g path
      have := path.length_le
      simp at this
  | succ d ih =>
      intro q f i g path at_ here
      cases q with
      | nil =>
          obtain rfl := Option.some.inj at_
          cases path with
          | cons small _ =>
              obtain ⟨-, -, bound, value, -⟩ := copy.leads small here
              rw [value]
              exact plain_tableEntry bound
      | cons j q =>
          cases path with
          | cons small path =>
              obtain ⟨g', first, at_⟩ := tableAt_cons_some at_
              obtain ⟨_, -, -, -, below⟩ := copy.leads small first
              exact ih below q f i g path at_ here

theorem Copy.route {n d p c : Nat} {mem mem' : Mem} (copy : Copy n d mem mem' p c) (small : index d virt < n)
    (at_ : tableAt next mem' c (routeFrom d virt) = some pt) :
    ∃ pt₀, tableAt next mem p (routeFrom d virt) = some pt₀ ∧
      mem' pt (index 0 virt) = cowCopy (mem pt₀ (index 0 virt)) := by
  induction d generalizing n p c with
  | zero =>
      obtain rfl := Option.some.inj at_
      exact ⟨p, rfl, copy _ small⟩
  | succ d ih =>
      obtain ⟨g, first, at_⟩ := tableAt_cons_some at_
      obtain ⟨f, parent, -, -, below⟩ := copy.leads small first
      rw [routeFrom, tableAt_cons parent]
      exact ih below (index_lt d virt) at_

theorem getElem?_append_one {k : Nat} {cr3' : UInt64} (at_ : (spaces ++ [child])[k]? = some cr3') :
    spaces[k]? = some cr3' ∨ k = spaces.length ∧ cr3' = child := by
  rw [List.getElem?_append] at at_
  split at at_
  · exact .inl at_
  · next large =>
      rcases Nat.eq_or_lt_of_le (Nat.le_of_not_lt large) with same | more
      · subst same
        simp at at_
        exact .inr ⟨rfl, at_.symm⟩
      · rw [List.getElem?_eq_none (by simp; omega)] at at_
        cases at_

section Child
variable {c : Nat} (isolated : Isolated m spaces) (here : spaces[k₀]? = some cr3) (cloned : CloneRun m t (frameOf cr3) c)
include cloned

theorem CloneRun.childTables : LowTables t (addrOf c) := by
  have cAt := frameOf_addrOf cloned.bound
  refine ⟨?_, ?_, ?_, ?_, ?_⟩
  · rw [toNat_addrOf cloned.bound]
    omega
  · have bound := cloned.bound
    rw [toNat_addrOf bound]
    unfold maxPages at bound
    omega
  · rw [cAt]
    exact cloned.tree
  · rw [cAt]
    exact cloned.copy.plains
  · rintro f ⟨q, path, at_⟩
    rw [cAt] at at_
    exact (cloned.fresh q f path at_).2

theorem CloneRun.childFresh (low : LowTable t.mem (addrOf c) f) : m.bitmap f = false := by
  obtain ⟨q, path, at_⟩ := low
  rw [frameOf_addrOf cloned.bound] at at_
  exact (cloned.fresh q f path at_).1

theorem CloneRun.childEntry (entry : UserEntry t.mem (addrOf c) virt pt e) :
    ∃ pt₀ e₀, UserEntry m.mem cr3 virt pt₀ e₀ ∧ e = cow e₀ := by
  have small := index_three_low entry.low
  have route := entry.route
  rw [frameOf_addrOf cloned.bound] at route
  obtain ⟨pt₀, route₀, value⟩ := cloned.copy.route small route
  rw [entry.entry] at value
  unfold cowCopy at value
  split at value
  · exact (entry.present (by rw [value]; rfl)).elim
  · next present =>
      refine ⟨pt₀, _, ⟨⟨route₀, rfl, present⟩, entry.low, ?_⟩, value⟩
      rw [← cow_user, ← value]
      exact entry.user

include isolated here

theorem CloneRun.parentEntry (entry : UserEntry t.mem cr3 virt pt e) : e &&& pgWrite = 0 := by
  have same := cloned.toCloneMarked.sameTables isolated here
  have pt' : PtOf 256 3 m.mem (frameOf cr3) pt :=
    ⟨routeFrom 3 virt, path_routeFrom (index_three_low entry.low), length_routeFrom 3 virt,
      (same.route entry.low).symm.trans entry.route⟩
  have value : e = cow (m.mem pt (index 0 virt)) := by
    rw [← entry.entry, cloned.pts pt pt', cowTable, if_pos (index_lt 0 virt)]
  rw [value]
  apply cow_readOnly
  · rw [← cow_present, ← value]
    exact entry.present
  · rw [← cow_user, ← value]
    exact entry.user

theorem CloneRun.isolatedChild : Isolated t (spaces ++ [addrOf c]) := by
  have weak := cloned.toCloneMarked.weakened isolated here
  have isolated' := isolated.weaken weak
  have oldTable {k : Nat} {cr3' : UInt64} (here' : spaces[k]? = some cr3') {f : Nat} (low : LowTable t.mem cr3' f) :
      m.bitmap f = true := (isolated.tables k cr3' here').taken f ((weak.same k cr3' here').lowTable.mp low)
  have apart {f : Nat} (used : m.bitmap f = true) : ¬LowTable t.mem (addrOf c) f := by
    intro low
    rw [cloned.childFresh low] at used
    cases used
  have dataUsed {k : Nat} {cr3' virt : UInt64} {pt : Nat} {e : UInt64} (here' : spaces[k]? = some cr3')
      (entry : UserEntry t.mem cr3' virt pt e) : m.bitmap (tableOf e) = true := by
    obtain ⟨e₀, entry₀, frame, -⟩ := weak.entries k cr3' virt pt e here' entry
    rw [frame]
    exact (isolated.data k cr3' virt pt e₀ here' entry₀).1
  refine ⟨isolated'.zero, ?_, ?_, ?_, ?_, ?_⟩
  · intro k cr3' at_
    rcases getElem?_append_one at_ with old | ⟨-, rfl⟩
    · exact isolated'.tables k cr3' old
    · exact cloned.childTables
  · intro k cr3' f at_ low
    rcases getElem?_append_one at_ with old | ⟨-, rfl⟩
    · exact isolated'.nonzero k cr3' f old low
    · rintro rfl
      exact apart isolated.zero low
  · intro k k' a a' f at_ at' low low'
    rcases getElem?_append_one at_ with old | ⟨new, rfl⟩
    · rcases getElem?_append_one at' with old' | ⟨new', rfl⟩
      · exact isolated'.forest k k' a a' f old old' low low'
      · exact (apart (oldTable old low) low').elim
    · rcases getElem?_append_one at' with old' | ⟨new', rfl⟩
      · exact (apart (oldTable old' low') low).elim
      · rw [new, new']
  · intro k a virt pt e at_ entry
    -- the frame of any page belonged to a page of an old process
    have dataOf : m.bitmap (tableOf e) = true ∧ ∀ (k' : Nat) cr3', spaces[k']? = some cr3' → ¬LowTable t.mem cr3' (tableOf e) := by
      rcases getElem?_append_one at_ with old | ⟨new, rfl⟩
      · exact ⟨dataUsed old entry, (isolated'.data k a virt pt e old entry).2⟩
      · obtain ⟨pt₀, e₀, entry₀, rfl⟩ := cloned.childEntry entry
        rw [tableOf_cow]
        obtain ⟨used, none⟩ := isolated.data k₀ cr3 virt pt₀ e₀ here entry₀
        exact ⟨used, fun k' cr3' here' low => none k' cr3' here' ((weak.same k' cr3' here').lowTable.mp low)⟩
    refine ⟨cloned.grows _ dataOf.1, fun k' a' at' low => ?_⟩
    rcases getElem?_append_one at' with old' | ⟨-, rfl⟩
    · exact dataOf.2 k' a' old' low
    · exact apart dataOf.1 low
  · intro k k' a a' virt virt' pt pt' e e' at_ at' entry entry' write frame
    rcases getElem?_append_one at_ with old | ⟨new, rfl⟩
    · rcases getElem?_append_one at' with old' | ⟨new', rfl⟩
      · exact isolated'.exclusive k k' a a' virt virt' pt pt' e e' old old' entry entry' write frame
      · -- the frame is mapped by the parent too, which may not write it
        obtain ⟨pt₀, e₀, entry₀, rfl⟩ := cloned.childEntry entry'
        obtain ⟨e₁, entry₁, frame₁, write₁⟩ := weak.entries k a virt pt e old entry
        have same := isolated.exclusive k k₀ a cr3 virt virt' pt pt₀ e₁ e₀ old here entry₁ entry₀ (write₁ write)
          (by rw [← frame₁, frame, tableOf_cow])
        rw [same.1, here] at old
        obtain rfl := Option.some.inj old
        exact (write (cloned.parentEntry isolated here entry)).elim
    · obtain ⟨pt₀, e₀, entry₀, rfl⟩ := cloned.childEntry entry
      exact (write (cow_readOnly entry₀.present entry₀.user)).elim

theorem CloneRun.seesChild (sees : Sees m spaces views) :
    Sees t (spaces ++ [addrOf c]) (views ++ [views.getD k₀ fun _ => 0]) := by
  have weak := cloned.toCloneMarked.weakened isolated here
  have old := sees.weaken weak fun k cr3' virt pt e here' entry => cloned.toCloneMarked.frames isolated here here' entry
  refine ⟨by simp [sees.length], fun k a virt pt e at_ entry => ?_⟩
  rcases getElem?_append_one at_ with old' | ⟨rfl, rfl⟩
  · have small : k < spaces.length := (List.getElem?_eq_some_iff.mp old').1
    rw [List.getD_append _ _ _ _ (by rw [sees.length]; exact small)]
    exact old.bytes k a virt pt e old' entry
  · obtain ⟨pt₀, e₀, entry₀, rfl⟩ := cloned.childEntry entry
    rw [List.getD_append_right _ _ _ _ (by rw [sees.length]), sees.length, Nat.sub_self, tableOf_cow,
      byteAt_frame (Nat.mod_lt _ (by decide)) (cloned.toCloneMarked.frames isolated here here entry₀)]
    exact sees.bytes k₀ cr3 virt pt₀ e₀ here entry₀

end Child

theorem setByteAt_run {phys : Nat} (run : (setByteAt phys b).run m = some ((), t)) :
    t.bitmap = m.bitmap ∧ ∀ h, h ≠ phys / 4096 → t.mem h = m.mem h := by
  cases run
  exact ⟨rfl, fun h other => Function.update_of_ne other _ _⟩

theorem weakened_store (isolated : Isolated m spaces) (here : spaces[k₀]? = some cr3) (entry : UserEntry m.mem cr3 virt pt e)
    (bitmap : t.bitmap = m.bitmap) (other : ∀ h, h ≠ tableOf e → t.mem h = m.mem h) : Weakened m t spaces := by
  have grows (f : Nat) (used : m.bitmap f = true) : t.bitmap f = true := by rw [bitmap, used]
  have kept {k : Nat} {cr3' : UInt64} (here' : spaces[k]? = some cr3') {f : Nat} (low : LowTable m.mem cr3' f) :
      t.mem f = m.mem f := by
    apply other
    rintro rfl
    exact (isolated.data k₀ cr3 virt pt e here entry).2 k cr3' here' low
  refine ⟨fun k cr3' here' => .of_apart grows fun f low => kept here' low, grows, fun k cr3' virt' pt' e' here' entry' => ?_⟩
  have same : SameTables m t cr3' := .of_apart grows fun f low => kept here' low
  have low : LowTable m.mem cr3' pt' := same.lowTable.mp (entry'.lowTable entry'.low)
  refine ⟨e', ⟨⟨(same.route entry'.low).symm.trans entry'.route, ?_, entry'.present⟩, entry'.low, entry'.user⟩, rfl, id⟩
  rw [← kept here' low]
  exact entry'.entry

theorem getD_modify (views : List View) (k k₀ : Nat) (change : View → View) (small : k₀ < views.length) :
    (views.modify k₀ change).getD k (fun _ => 0) =
      if k = k₀ then change (views.getD k₀ fun _ => 0) else views.getD k fun _ => 0 := by
  simp only [List.getD_eq_getElem?_getD, List.getElem?_modify]
  by_cases same : k = k₀
  · subst same
    simp [List.getElem?_eq_getElem small]
  · simp [same, Ne.symm same]

theorem Sees.store (sees : Sees m spaces views) (isolated : Isolated m spaces) (here : spaces[k₀]? = some cr3)
    (entry : UserEntry m.mem cr3 virt pt e) (write : e &&& pgWrite ≠ 0)
    (run : (setByteAt (tableOf e * 4096 + virt.toNat % 4096) b).run m = some ((), t)) :
    Isolated t spaces ∧ Sees t spaces (views.modify k₀ fun view => Function.update view virt b) := by
  obtain ⟨bitmap, other⟩ := setByteAt_run run
  have frame : (tableOf e * 4096 + virt.toNat % 4096) / 4096 = tableOf e := by omega
  rw [frame] at other
  have weak := weakened_store isolated here entry bitmap other
  refine ⟨isolated.weaken weak, by rw [List.length_modify, sees.length], fun k cr3' virt' pt' e' here' entry' => ?_⟩
  obtain ⟨e₀, entry₀, frame₀, -⟩ := weak.entries k cr3' virt' pt' e' here' entry'
  have small : k₀ < views.length := by
    rw [sees.length]
    exact (List.getElem?_eq_some_iff.mp here).1
  rw [byteAt_setByteAt _ run, getD_modify _ _ _ _ small, frame₀]
  by_cases same : tableOf e₀ * 4096 + virt'.toNat % 4096 = tableOf e * 4096 + virt.toNat % 4096
  · obtain ⟨rfl, page⟩ := isolated.exclusive k₀ k cr3 cr3' virt virt' pt pt' e e₀ here here' entry entry₀ write (by omega)
    obtain rfl : virt = virt' := UInt64.toNat_inj.mp (by omega)
    rw [if_pos same, if_pos rfl, Function.update_self]
  · rw [if_neg same, sees.bytes k cr3' virt' pt' e₀ here' entry₀]
    split
    · next process =>
        subst process
        obtain rfl := Option.some.inj (here.symm.trans here')
        refine (Function.update_of_ne (fun equal => ?_) _ _).symm
        subst equal
        -- one process maps an address once
        obtain rfl : pt = pt' := Option.some.inj (entry.route.symm.trans entry₀.route)
        exact same (by rw [← entry.entry, ← entry₀.entry])
    · rfl

section Moved
variable (isolated : Isolated m spaces) (here : spaces[k₀]? = some cr3) (entry : UserEntry m.mem cr3 virt pt e)
  (moved : Moved m u virt pt g e)
include isolated here entry moved

omit isolated here entry in
theorem Moved.grows (used : m.bitmap f = true) : u.bitmap f = true := by
  rw [moved.bitmap, Function.update_apply, used, ite_self]

omit here entry in
theorem Moved.kept {cr3' : UInt64} (here' : spaces[k]? = some cr3') (low : LowTable m.mem cr3' f) (other : f ≠ pt) :
    u.mem f = m.mem f := by
  refine moved.other f other ?_
  rintro rfl
  have := (isolated.tables k cr3' here').taken f low
  rw [moved.free] at this
  cases this

theorem Moved.sameTables {cr3' : UInt64} (here' : spaces[k]? = some cr3') : SameTables m u cr3' := by
  by_cases process : k = k₀
  · subst process
    obtain rfl := Option.some.inj (here.symm.trans here')
    exact (isolated.tables k cr3 here).sameTables entry.low entry.route (fun f => moved.grows) fun f other low =>
      moved.kept isolated here' low other
  · refine .of_apart (fun f => moved.grows) fun f low => moved.kept isolated here' low ?_
    rintro rfl
    exact process (isolated.forest k k₀ cr3' cr3 f here' here low (entry.lowTable entry.low))

theorem Moved.origin {cr3' virt' e' : UInt64} {pt' : Nat} (here' : spaces[k]? = some cr3')
    (entry' : UserEntry u.mem cr3' virt' pt' e') :
    (k = k₀ ∧ virt'.toNat / 4096 = virt.toNat / 4096 ∧ e' = movedEntry g ∧ UserEntry m.mem cr3' virt' pt' e) ∨
    UserEntry m.mem cr3' virt' pt' e' := by
  have same := moved.sameTables isolated here entry here'
  have route := (same.route entry'.low).symm.trans entry'.route
  by_cases table : pt' = pt
  · subst table
    obtain rfl := isolated.forest k k₀ cr3' cr3 pt' here' here ⟨_, path_routeFrom (index_three_low entry'.low), route⟩
      (entry.lowTable entry.low)
    obtain rfl := Option.some.inj (here.symm.trans here')
    have routes := (isolated.tables k cr3 here).tree.unique _ _ pt' (path_routeFrom (index_three_low entry'.low))
      (path_routeFrom (index_three_low entry.low)) route entry.route
    have value := entry'.entry
    rw [moved.table, Function.update_apply] at value
    split at value
    · next last =>
        have page := page_eq entry'.low entry.low routes last
        exact .inl ⟨rfl, page, value.symm, entry.toEntry.samePage page, entry'.low, entry.user⟩
    · exact .inr ⟨⟨route, value, entry'.present⟩, entry'.low, entry'.user⟩
  · refine .inr ⟨⟨route, ?_, entry'.present⟩, entry'.low, entry'.user⟩
    rw [← moved.kept isolated here' ⟨_, path_routeFrom (index_three_low entry'.low), route⟩ table]
    exact entry'.entry

theorem Moved.userEntry : UserEntry u.mem cr3 virt pt (movedEntry g) where
  route := ((moved.sameTables isolated here entry here).route entry.low).trans entry.route
  entry := by rw [moved.table, Function.update_self]
  present := movedEntry_present moved.bound
  low := entry.low
  user := movedEntry_user moved.bound

theorem Moved.isolatedAfter : Isolated u spaces := by
  -- no old page is on the new frame
  have oldFrame {k : Nat} {cr3' virt' e' : UInt64} {pt' : Nat} (here' : spaces[k]? = some cr3')
      (entry' : UserEntry m.mem cr3' virt' pt' e') : tableOf e' ≠ g := by
    intro same
    have := (isolated.data k cr3' virt' pt' e' here' entry').1
    rw [same, moved.free] at this
    cases this
  have same {k : Nat} {cr3' : UInt64} (here' : spaces[k]? = some cr3') := moved.sameTables isolated here entry here'
  refine ⟨moved.grows isolated.zero, fun k cr3' here' => (same here').tables (isolated.tables k cr3' here'),
    fun k cr3' f here' low => isolated.nonzero k cr3' f here' ((same here').lowTable.mp low),
    fun k k' a a' f here' here'' low low' =>
      isolated.forest k k' a a' f here' here'' ((same here').lowTable.mp low) ((same here'').lowTable.mp low'), ?_, ?_⟩
  · intro k cr3' virt' pt' e' here' entry'
    rcases moved.origin isolated here entry here' entry' with ⟨-, -, rfl, -⟩ | old
    · rw [tableOf_movedEntry moved.bound]
      refine ⟨by rw [moved.bitmap, Function.update_self], fun k'' a'' here'' low => ?_⟩
      have := (isolated.tables k'' a'' here'').taken g ((same here'').lowTable.mp low)
      rw [moved.free] at this
      cases this
    · obtain ⟨used, apart⟩ := isolated.data k cr3' virt' pt' e' here' old
      exact ⟨moved.grows used, fun k'' a'' here'' low => apart k'' a'' here'' ((same here'').lowTable.mp low)⟩
  · intro k k' a a' virt₁ virt₂ pt₁ pt₂ e₁ e₂ here₁ here₂ entry₁ entry₂ write frame
    rcases moved.origin isolated here entry here₁ entry₁ with ⟨rfl, page₁, rfl, -⟩ | old₁
    · rcases moved.origin isolated here entry here₂ entry₂ with ⟨rfl, page₂, rfl, -⟩ | old₂
      · exact ⟨rfl, page₁.trans page₂.symm⟩
      · rw [tableOf_movedEntry moved.bound] at frame
        exact (oldFrame here₂ old₂ frame.symm).elim
    · rcases moved.origin isolated here entry here₂ entry₂ with ⟨rfl, page₂, rfl, -⟩ | old₂
      · rw [tableOf_movedEntry moved.bound] at frame
        exact (oldFrame here₁ old₁ frame).elim
      · exact isolated.exclusive k k' a a' virt₁ virt₂ pt₁ pt₂ e₁ e₂ here₁ here₂ old₁ old₂ write frame

theorem Moved.seesAfter (sees : Sees m spaces views) : Sees u spaces views := by
  refine ⟨sees.length, fun k cr3' virt' pt' e' here' entry' => ?_⟩
  rcases moved.origin isolated here entry here' entry' with ⟨-, -, rfl, old⟩ | old
  · rw [← sees.bytes k cr3' virt' pt' e here' old, tableOf_movedEntry moved.bound]
    exact byteAt_copy (Nat.mod_lt _ (by decide)) moved.page
  · rw [← sees.bytes k cr3' virt' pt' e' here' old]
    refine byteAt_frame (Nat.mod_lt _ (by decide)) (moved.other _ ?_ ?_)
    · intro table
      refine (isolated.data k cr3' virt' pt' e' here' old).2 k₀ cr3 here ?_
      rw [table]
      exact entry.lowTable entry.low
    · intro same
      have := (isolated.data k cr3' virt' pt' e' here' old).1
      rw [same, moved.free] at this
      cases this

end Moved

/-- One process, whose user pages are all on frames of their own that are no tables. Frame 0 is never handed out. -/
structure OneProcess (m : Machine) (cr3 : UInt64) : Prop where
  zero : m.bitmap 0 = true
  tables : LowTables m cr3
  nonzero : ∀ f, LowTable m.mem cr3 f → f ≠ 0
  data : ∀ virt pt e, UserEntry m.mem cr3 virt pt e → m.bitmap (tableOf e) = true ∧ ¬LowTable m.mem cr3 (tableOf e)
  distinct : ∀ virt virt' pt pt' e e', UserEntry m.mem cr3 virt pt e → UserEntry m.mem cr3 virt' pt' e' →
    tableOf e = tableOf e' → virt.toNat / 4096 = virt'.toNat / 4096

theorem getElem?_one {cr3' : UInt64} (at_ : [cr3][k]? = some cr3') : k = 0 ∧ cr3' = cr3 := by
  cases k with
  | zero => exact ⟨rfl, (Option.some.inj at_).symm⟩
  | succ k => cases at_

theorem OneProcess.isolated (one : OneProcess m cr3) : Isolated m [cr3] := by
  refine ⟨one.zero, ?_, ?_, ?_, ?_, ?_⟩
  · intro k a here
    obtain ⟨-, rfl⟩ := getElem?_one here
    exact one.tables
  · intro k a f here low
    obtain ⟨-, rfl⟩ := getElem?_one here
    exact one.nonzero f low
  · intro k k' a a' f here here' _ _
    rw [(getElem?_one here).1, (getElem?_one here').1]
  · intro k a virt pt e here entry
    obtain ⟨-, rfl⟩ := getElem?_one here
    obtain ⟨used, apart⟩ := one.data virt pt e entry
    refine ⟨used, fun k' a' here' => ?_⟩
    obtain ⟨-, rfl⟩ := getElem?_one here'
    exact apart
  · intro k k' a a' virt virt' pt pt' e e' here here' entry entry' _ frame
    obtain ⟨rfl, rfl⟩ := getElem?_one here
    obtain ⟨rfl, rfl⟩ := getElem?_one here'
    exact ⟨rfl, one.distinct virt virt' pt pt' e e' entry entry' frame⟩

theorem OneProcess.sees (one : OneProcess m cr3) : Sees m [cr3] [viewOf m.mem cr3] := by
  refine ⟨rfl, fun k a virt pt e here entry => ?_⟩
  obtain ⟨rfl, rfl⟩ := getElem?_one here
  change _ = viewOf m.mem a virt
  unfold viewOf
  rw [one.tables.translate_entry entry.low entry.toEntry]
  rfl

theorem weakened_cr3 (m : Machine) (cr3 : UInt64) (spaces : List UInt64) : Weakened m { m with cr3 } spaces :=
  ⟨fun _ _ _ => ⟨fun _ used => used, fun _ _ _ _ _ => rfl⟩, fun _ used => used, fun _ _ _ _ e _ entry => ⟨e, entry, rfl, id⟩⟩

theorem Isolated.userEntry (isolated : Isolated m spaces) (here : spaces[k]? = some cr3) (page : UserPage m.mem cr3 virt tr) :
    ∃ pt e, UserEntry m.mem cr3 virt pt e ∧ tr = leafAt 0 e virt := by
  have low : virt.toNat < 2 ^ 47 := UInt64.lt_iff_toNat_lt.mp page.low
  obtain ⟨pt, e, entry, rfl⟩ := ((isolated.tables k cr3 here).translate_page low).mp ⟨page.maps, page.level⟩
  exact ⟨pt, e, ⟨entry, low, by simpa [leafAt] using page.user⟩, rfl⟩

theorem step_sees {s s' : CowSys} {event : MemEvent} (isolated : Isolated s.machine s.spaces)
    (sees : Sees s.machine s.spaces views) (step : CowStep s event s') :
    Isolated s'.machine s'.spaces ∧ Sees s'.machine s'.spaces (event.apply views) := by
  have loaded (cr3 : UInt64) : Isolated { s.machine with cr3 } s.spaces ∧ Sees { s.machine with cr3 } s.spaces views :=
    ⟨isolated.weaken (weakened_cr3 _ _ _), sees.weaken (weakened_cr3 _ _ _) fun _ _ _ _ _ _ _ => rfl⟩
  cases step with
  | @fork k cr3 child m here run success =>
      obtain ⟨isolated, sees⟩ := loaded cr3
      rcases vmmClonePml4_run (isolated.tables k cr3 here) run with ⟨failed, -⟩ | ⟨c, rfl, -, cloned⟩
      · exact (success failed).elim
      · exact ⟨cloned.isolatedChild isolated here, cloned.seesChild isolated here sees⟩
  | @forkFailed k cr3 m here run =>
      obtain ⟨isolated, sees⟩ := loaded cr3
      have marked : CloneMarked { s.machine with cr3 } m (frameOf cr3) := by
        rcases vmmClonePml4_run (isolated.tables k cr3 here) run with ⟨-, marked⟩ | ⟨c, zero, nonzero, cloned⟩
        · exact marked
        · exact cloned.toCloneMarked
      have weak := marked.weakened isolated here
      exact ⟨isolated.weaken weak, sees.weaken weak fun _ _ _ _ _ here' entry => marked.frames isolated here here' entry⟩
  | @load k cr3 virt tr b m here page run =>
      unfold userLoad at run
      obtain ⟨tr', s₁, walk, run₁⟩ := run_bind_eq_some.mp run
      obtain ⟨-, same⟩ := translated_run walk
      rw [same] at run₁
      have unchanged : m = { s.machine with cr3 } := by
        cases user : tr'.user with
        | false =>
            rw [user] at run₁
            cases run₁
        | true =>
            rw [user] at run₁
            cases run₁
            rfl
      rw [unchanged]
      exact loaded cr3
  | @store k cr3 virt tr b m here page run =>
      obtain ⟨isolated, sees⟩ := loaded cr3
      obtain ⟨pt, e, entry, -⟩ := isolated.userEntry here page
      have nonzero := isolated.nonzero k cr3 pt here (entry.lowTable entry.low)
      cases userStore_run (isolated.tables k cr3 here) entry.low entry.toEntry nonzero entry.user run with
      | inPlace write store => exact sees.store isolated here entry write store
      | @moved u _ g moved store =>
          have store' := store
          rw [← tableOf_movedEntry moved.bound] at store'
          exact (moved.seesAfter isolated here entry sees).store (moved.isolatedAfter isolated here entry) here
            (moved.userEntry isolated here entry) (movedEntry_write moved.bound) store'

theorem run_sees {s : CowSys} {events : List MemEvent} (one : OneProcess m cr3) (run : CowRun ⟨m, [cr3]⟩ events s) :
    Isolated s.machine s.spaces ∧ Sees s.machine s.spaces (events.foldl MemEvent.apply [viewOf m.mem cr3]) := by
  induction run with
  | start => exact ⟨one.isolated, one.sees⟩
  | step before step ih =>
      rw [List.foldl_append]
      exact step_sees ih.1 ih.2 step

/-- In every run of forks, loads and stores, a frame that a process may write is mapped once, and a load returns what
the process would see in a memory of its own. -/
theorem cow_isolation {s : CowSys} {events : List MemEvent} (one : OneProcess m cr3) (run : CowRun ⟨m, [cr3]⟩ events s) :
    (∀ (k k' : Nat) a a' virt virt' tr tr', s.spaces[k]? = some a → s.spaces[k']? = some a' →
      UserPage s.machine.mem a virt tr → UserPage s.machine.mem a' virt' tr' → tr.write = true →
      tr.phys / 4096 = tr'.phys / 4096 → k = k' ∧ virt.toNat / 4096 = virt'.toNat / 4096) ∧
    ∀ k virt b s', CowStep s (.load k virt b) s' →
      b = (events.foldl MemEvent.apply [viewOf m.mem cr3]).getD k (fun _ => 0) virt := by
  obtain ⟨isolated, sees⟩ := run_sees one run
  refine ⟨fun k k' a a' virt virt' tr tr' here here' page page' write frame => ?_, fun k virt b s' step => ?_⟩
  · obtain ⟨pt, e, entry, rfl⟩ := isolated.userEntry here page
    obtain ⟨pt', e', entry', rfl⟩ := isolated.userEntry here' page'
    rw [frame_leafAt, frame_leafAt] at frame
    exact isolated.exclusive k k' a a' virt virt' pt pt' e e' here here' entry entry' (by simpa [leafAt] using write) frame
  · cases step with
    | @load _ cr3' _ tr _ m' here page run =>
        obtain ⟨pt, e, entry, rfl⟩ := isolated.userEntry here page
        unfold userLoad at run
        obtain ⟨tr', s₁, walk, run₁⟩ := run_bind_eq_some.mp run
        obtain ⟨walk, same⟩ := translated_run walk
        obtain rfl := Option.some.inj (page.maps.symm.trans walk)
        rw [same] at run₁
        have user := page.user
        rw [user] at run₁
        rw [← sees.bytes k cr3' virt pt e here entry]
        cases run₁
        rfl

theorem userEntry_onePage (entry : UserEntry onePage.mem 0x1000 virt pt e) :
    virt.toNat / 4096 = 0x1000 ∧ pt = 4 ∧ e = 0x5007 := by
  have low := entry.low
  have length := length_routeFrom 3 virt
  rcases onePage_tableAt (path_routeFrom (index_three_low low)) entry.route with
    ⟨route, -⟩ | ⟨route, -⟩ | ⟨route, -⟩ | ⟨route, rfl⟩
  · rw [route] at length
    cases length
  · rw [route] at length
    cases length
  · rw [route] at length
    cases length
  · obtain ⟨three, two, one⟩ : index 3 virt = 0 ∧ index 2 virt = 0 ∧ index 1 virt = 8 := by simpa [routeFrom] using route
    have value : onePage.mem 4 (index 0 virt) = if index 0 virt = 0 then 0x5007 else 0 := by simp [onePage]
    have last : index 0 virt = 0 := by
      by_contra other
      rw [if_neg other, entry.entry] at value
      exact entry.present (by rw [value]; rfl)
    rw [if_pos last, entry.entry] at value
    rw [index_three] at three
    rw [index_two] at two
    rw [index_one] at one
    rw [index_zero] at last
    exact ⟨by omega, rfl, value⟩

theorem oneProcess_onePage : OneProcess onePage 0x1000 := by
  refine ⟨rfl, lowTables_onePage, fun f low => ?_, fun virt pt e entry => ?_, fun virt virt' pt pt' e e' entry entry' _ => ?_⟩
  · have := lowTable_onePage low
    omega
  · obtain ⟨-, -, rfl⟩ := userEntry_onePage entry
    refine ⟨by decide, fun low => ?_⟩
    have frame : tableOf 0x5007 = 5 := by decide
    rw [frame] at low
    have := lowTable_onePage low
    omega
  · rw [(userEntry_onePage entry).1, (userEntry_onePage entry').1]

theorem cow_isolation_fork : ∃ s, CowRun ⟨onePage, [0x1000]⟩ [.fork 0] s ∧ (∃ s', CowStep s (.load 1 0x1000000 0) s') ∧
    ∀ b s', CowStep s (.load 1 0x1000000 b) s' → b = 0 := by
  obtain ⟨child, t, run, success⟩ := onePage_forks
  have forked : CowRun ⟨onePage, [0x1000]⟩ ([] ++ [.fork 0]) ⟨t, [0x1000, child]⟩ := .step .start (.fork rfl run success)
  refine ⟨⟨t, [0x1000, child]⟩, forked, ⟨⟨{ t with cr3 := child }, [0x1000, child]⟩, ?_⟩, fun b s' step => ?_⟩
  · rcases vmmClonePml4_run lowTables_onePage run with ⟨failed, -⟩ | ⟨c, rfl, -, cloned⟩
    · exact (success failed).elim
    have maps : translate t.mem (addrOf c) 0x1000000 = some ⟨0x5000, 0x5005, 0, false, true, false⟩ :=
      (cloned.translate_low lowTables_onePage (by decide)).trans (by decide)
    have frame : t.mem 5 = onePage.mem 5 := by
      refine (cloned.old 5 rfl).resolve_right fun changed => ?_
      obtain ⟨q, path, -, at_⟩ := changed.1
      have := lowTable_onePage ⟨q, path, at_⟩
      omega
    refine @CowStep.load _ 1 (addrOf c) 0x1000000 _ 0 _ rfl ⟨by decide, by decide, maps, rfl, rfl⟩ ?_
    have walk : (translated 0x1000000).run { t with cr3 := addrOf c } =
        some (⟨0x5000, 0x5005, 0, false, true, false⟩, { t with cr3 := addrOf c }) := by
      unfold translated
      rw [run_bind_some (x := get) rfl]
      dsimp only
      rw [maps]
      rfl
    unfold userLoad
    rw [run_bind_some walk]
    change some (byteAt t.mem 0x5000, _) = _
    have byte : byteAt t.mem 0x5000 = 0 := by
      change byteOf (t.mem 5 0) 0 = 0
      rw [frame]
      rfl
    rw [byte]
  · exact (cow_isolation oneProcess_onePage forked).2 1 0x1000000 b s' step

end SwiftBSD.Proof.Mm
