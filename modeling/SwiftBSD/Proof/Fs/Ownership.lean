import SwiftBSD.Lib.Ownership
import SwiftBSD.Proof.Fs.Alloc

namespace SwiftBSD.Proof.Fs
open Lib SwiftBSD.Fs

def fileBlock (data : Nat → Block) (x : Inode) (l : Nat) : Nat :=
  if h : l < 12 then (x.direct ⟨l, h⟩).toNat
  else if l < 1036 ∧ x.indirect ≠ 0 then (data x.indirect.toNat).field (4 * (l - 12)) 4
  else 0

def slot (data : Nat → Block) (x : Inode) (k : Nat) : Nat :=
  if k = 1036 then x.indirect.toNat else fileBlock data x k

namespace Vol

def slots (V : Vol) (p : Nat × Nat) : Nat := if p.1 < V.inodes then slot V.data (V.inode p.1) p.2 else 0

def Used (V : Vol) (b : Nat) : Prop := b < V.blocks ∧ V.used b = true

end Vol

/-- Block ownership of a volume; the metadata is among the reserved blocks `R`. -/
structure Own (R : Nat → Prop) (V : Vol) : Prop where
  owns : Owns V.Used R V.slots
  reserved : ∀ b, Meta V.groups b → R b

abbrev Vol.Spare (R : Nat → Prop) (V : Vol) (b : Nat) : Prop := Lib.Spare V.Used R V.slots b

variable {R : Nat → Prop} {V : Vol} {i b l : Nat} {x : Inode}

theorem uint32_eq_zero {v : UInt32} : v.toNat = 0 ↔ v = 0 := by
  rw [← UInt32.toNat_inj]
  rfl

theorem fileBlock_lt (data : Nat → Block) (x : Inode) (l : Nat) : fileBlock data x l < 2 ^ 32 := by
  unfold fileBlock
  split
  · exact UInt32.toNat_lt _
  · split
    · simpa using Bytes.field_lt (data x.indirect.toNat) (4 * (l - 12)) 4
    · decide

theorem slot_lt (data : Nat → Block) (x : Inode) (k : Nat) : slot data x k < 2 ^ 32 := by
  unfold slot
  split
  · exact UInt32.toNat_lt _
  · exact fileBlock_lt data x k

theorem fileBlock_of_ge {data : Nat → Block} (h : 1036 ≤ l) : fileBlock data x l = 0 := by
  unfold fileBlock
  rw [dif_neg (by omega), if_neg (by omega)]

theorem slot_of_lt {data : Nat → Block} (h : l < 1036) : slot data x l = fileBlock data x l := by
  rw [slot, if_neg (by omega)]

theorem fileBlock_congr {data data' : Nat → Block}
    (table : x.indirect ≠ 0 → data x.indirect.toNat = data' x.indirect.toNat) (l : Nat) :
    fileBlock data x l = fileBlock data' x l := by
  unfold fileBlock
  split
  · rfl
  · split
    · next h => rw [table h.2]
    · rfl

theorem slot_congr {data data' : Nat → Block}
    (table : x.indirect ≠ 0 → data x.indirect.toNat = data' x.indirect.toNat) :
    slot data x = slot data' x := by
  funext k
  unfold slot
  rw [fileBlock_congr table]

theorem fileBlock_pointers {x' : Inode} (direct : x'.direct = x.direct) (indirect : x'.indirect = x.indirect)
    (data : Nat → Block) (l : Nat) : fileBlock data x' l = fileBlock data x l := by
  unfold fileBlock
  rw [direct, indirect]

theorem slot_pointers {x' : Inode} (direct : x'.direct = x.direct) (indirect : x'.indirect = x.indirect)
    (data : Nat → Block) : slot data x' = slot data x := by
  funext k
  unfold slot
  rw [indirect, fileBlock_pointers direct indirect]

theorem slots_of_lt (h : i < V.inodes) (k : Nat) : V.slots (i, k) = slot V.data (V.inode i) k := if_pos h

theorem slots_setInode (hi : i < V.inodes) (k : Nat) : (V.setInode i x).slots (i, k) = slot V.data x k := by
  rw [slots_of_lt (show i < (V.setInode i x).inodes from hi)]
  simp [Vol.setInode]

theorem slots_setInode_of_ne {p : Nat × Nat} (h : p.1 ≠ i) : (V.setInode i x).slots p = V.slots p := by
  unfold Vol.slots
  simp only [Vol.setInode, Function.update_of_ne h]
  rfl

theorem slots_setData (v : Block) (table : ∀ j < V.inodes, (V.inode j).indirect.toNat ≠ b) :
    (V.setData b v).slots = V.slots := by
  funext p
  unfold Vol.slots
  by_cases inside : p.1 < V.inodes
  · rw [if_pos inside, if_pos (show p.1 < (V.setData b v).inodes from inside)]
    refine congrFun (slot_congr fun _ => ?_) p.2
    exact Function.update_of_ne (table p.1 inside) _ _
  · rw [if_neg inside, if_neg (show ¬ p.1 < (V.setData b v).inodes from inside)]

namespace Own

theorem used_zero (own : Own R V) : V.used 0 = true :=
  (own.owns.covered 0 (own.reserved 0 (.inl (by omega)))).2

theorem not_meta (own : Own R V) {p : Nat × Nat} (h : V.slots p ≠ 0) : ¬ Meta V.groups (V.slots p) :=
  fun isMeta => own.owns.unreserved p h (own.reserved _ isMeta)

theorem spare_not_meta (own : Own R V) (spare : V.Spare R b) : ¬ Meta V.groups b :=
  fun isMeta => spare.unreserved (own.reserved _ isMeta)

theorem spare_not_table (spare : V.Spare R b) : ∀ j < V.inodes, (V.inode j).indirect.toNat ≠ b := by
  intro j hj
  have := spare.absent (j, 1036)
  rwa [slots_of_lt hj, slot, if_pos rfl] at this

theorem not_table (own : Own R V) (hl : l < 1036) (h : V.slots (i, l) ≠ 0) :
    ∀ j < V.inodes, (V.inode j).indirect.toNat ≠ V.slots (i, l) := by
  intro j hj same
  have := own.owns.unique (i, l) (j, 1036) h (by rw [← same, slots_of_lt hj, slot, if_pos rfl])
  simp only [Prod.mk.injEq] at this
  omega

theorem setData (own : Own R V) (v : Block) (table : ∀ j < V.inodes, (V.inode j).indirect.toNat ≠ b) :
    Own R (V.setData b v) := by
  refine ⟨?_, own.reserved⟩
  rw [slots_setData v table]
  exact own.owns

end Own

theorem Vol.Spare.setData {c : Nat} (spare : V.Spare R c) (v : Block)
    (table : ∀ j < V.inodes, (V.inode j).indirect.toNat ≠ b) : (V.setData b v).Spare R c := by
  unfold Vol.Spare
  rw [slots_setData v table]
  exact spare

theorem used_take (h : V.Used l) : (V.take b).Used l := by
  refine ⟨h.1, ?_⟩
  simp only [Vol.take, Function.update_apply]
  split
  · rfl
  · exact h.2

theorem Own.take (own : Own R V) : Own R (V.take b) := ⟨own.owns.grow fun _ => used_take, own.reserved⟩

theorem Own.spare_take (own : Own R V) (nonzero : b ≠ 0) (bound : b < V.blocks) (free : V.used b = false) :
    (V.take b).Spare R b :=
  own.owns.spare nonzero (by simp [Vol.Used, free]) ⟨bound, by simp [Vol.take]⟩

theorem Vol.Spare.take {c : Nat} (spare : V.Spare R c) : (V.take b).Spare R c := Lib.Spare.grow spare fun _ => used_take

theorem Own.exhaust (own : Own R V) : Own R V.exhaust := ⟨own.owns, own.reserved⟩

theorem Own.refresh (own : Own R V) : Own R V.refresh := ⟨own.owns, own.reserved⟩

theorem slot_setDirect {data : Nat → Block} (k : Fin 12) (c : UInt32) :
    slot data (x.setDirect k c) = Function.update (slot data x) k c.toNat := by
  funext m
  simp only [slot, fileBlock, Inode.setDirect, Function.update_apply]
  have hk := k.isLt
  by_cases table : m = 1036
  · rw [if_pos table, if_neg (by omega), if_pos table]
  rw [if_neg table, if_neg table]
  by_cases direct : m < 12
  · simp only [dif_pos direct, Fin.ext_iff]
    split <;> rfl
  · rw [dif_neg direct, dif_neg direct, if_neg (show m ≠ k by omega)]
    rfl

theorem slot_setIndirect {data : Nat → Block} (c : UInt32) (none : x.indirect = 0)
    (empty : data c.toNat = .zero) :
    slot data { x with indirect := c } = Function.update (slot data x) 1036 c.toNat := by
  funext m
  simp only [slot, fileBlock, Function.update_apply]
  by_cases table : m = 1036
  · rw [if_pos table, if_pos table]
  rw [if_neg table, if_neg table, if_neg table]
  by_cases direct : m < 12
  · rw [dif_pos direct, dif_pos direct]
  · rw [dif_neg direct, dif_neg direct, empty, Bytes.field_zero, if_neg (fun h => h.2 none : ¬ (m < 1036 ∧ x.indirect ≠ 0))]
    split <;> rfl

theorem slot_setEntry {data : Nat → Block} (k : Nat) (hk : k < 1024) (c : UInt32) (table : x.indirect ≠ 0) :
    slot (Function.update data x.indirect.toNat ((data x.indirect.toNat).write (4 * k) (leBytes 4 c.toNat))) x =
      Function.update (slot data x) (12 + k) c.toNat := by
  funext m
  simp only [slot, fileBlock, Function.update_apply, if_true]
  by_cases last : m = 1036
  · rw [if_pos last, if_neg (by omega), if_pos last]
  rw [if_neg last, if_neg last]
  by_cases direct : m < 12
  · rw [dif_pos direct, dif_pos direct, if_neg (by omega)]
  rw [dif_neg direct, dif_neg direct]
  by_cases same : m = 12 + k
  · rw [if_pos same, if_pos ⟨by omega, table⟩, show m - 12 = k by omega, Bytes.field_write_same _ (by omega)]
    have := UInt32.toNat_lt c
    omega
  · rw [if_neg same]
    by_cases inside : m < 1036
    · rw [if_pos ⟨inside, table⟩, if_pos ⟨inside, table⟩, Bytes.field_write_disjoint]
      rw [length_leBytes]
      omega
    · rw [if_neg (by omega), if_neg (by omega)]

theorem slots_update {x' : Inode} {k c : Nat} (hi : i < V.inodes)
    (h : slot V.data x' = Function.update (slot V.data x) k c) :
    (V.setInode i x').slots = Function.update (V.setInode i x).slots (i, k) c := by
  funext p
  by_cases here : p.1 = i
  · obtain ⟨j, m⟩ := p
    subst here
    rw [slots_setInode hi, h, Function.update_apply, Function.update_apply, slots_setInode hi]
    simp only [Prod.mk.injEq, true_and]
  · have other : p ≠ (i, k) := fun same => here (by rw [same])
    rw [slots_setInode_of_ne here, Function.update_of_ne other, slots_setInode_of_ne here]

namespace Own

theorem linkDirect (own : Own R (V.setInode i x)) (hi : i < V.inodes) {c : UInt32}
    (spare : (V.setInode i x).Spare R c.toNat) (k : Fin 12) : Own R (V.setInode i (x.setDirect k c)) := by
  refine ⟨?_, own.reserved⟩
  rw [slots_update hi (slot_setDirect k c)]
  exact own.owns.link spare (i, k.val)

theorem linkTable (own : Own R (V.setInode i x)) (hi : i < V.inodes) {c : UInt32}
    (spare : (V.setInode i x).Spare R c.toNat) (none : x.indirect = 0) (empty : V.data c.toNat = .zero) :
    Own R (V.setInode i { x with indirect := c }) := by
  refine ⟨?_, own.reserved⟩
  rw [slots_update hi (slot_setIndirect c none empty)]
  exact own.owns.link spare (i, 1036)

theorem table_ne (own : Own R (V.setInode i x)) (hi : i < V.inodes) (table : x.indirect ≠ 0) {j : Nat}
    (hj : j < V.inodes) (other : j ≠ i) : (V.inode j).indirect ≠ x.indirect := by
  intro same
  have nonzero : (V.setInode i x).slots (i, 1036) ≠ 0 := by
    rw [slots_setInode hi, slot, if_pos rfl]
    exact fun h => table (uint32_eq_zero.mp h)
  have := own.owns.unique (i, 1036) (j, 1036) nonzero (by
    rw [slots_setInode hi, slots_setInode_of_ne (p := (j, 1036)) other, slots_of_lt hj, slot, slot, if_pos rfl,
      if_pos rfl, same])
  exact other (Prod.mk.inj this).1.symm

theorem slots_entry (own : Own R (V.setInode i x)) (hi : i < V.inodes) (table : x.indirect ≠ 0) {k : Nat}
    (hk : k < 1024) (c : UInt32) :
    ((V.setData x.indirect.toNat
      ((V.data x.indirect.toNat).write (4 * k) (leBytes 4 c.toNat))).setInode i x).slots =
      Function.update (V.setInode i x).slots (i, 12 + k) c.toNat := by
  funext p
  by_cases here : p.1 = i
  · obtain ⟨j, m⟩ := p
    subst here
    rw [slots_setInode (V := V.setData _ _) hi, Function.update_apply, slots_setInode hi, Vol.setData,
      slot_setEntry k hk c table, Function.update_apply]
    simp only [Prod.mk.injEq, true_and]
  · have other : p ≠ (i, 12 + k) := fun same => here (by rw [same])
    rw [slots_setInode_of_ne here, Function.update_of_ne other, slots_setInode_of_ne here]
    by_cases inside : p.1 < V.inodes
    · rw [slots_of_lt (V := V.setData _ _) inside, slots_of_lt inside]
      refine congrFun (slot_congr fun _ => ?_) p.2
      refine Function.update_of_ne ?_ _ _
      exact fun same => own.table_ne hi table inside here (UInt32.toNat_inj.mp same)
    · simp only [Vol.slots]
      rw [if_neg inside, if_neg (show ¬ p.1 < (V.setData _ _).inodes from inside)]

theorem linkEntry (own : Own R (V.setInode i x)) (hi : i < V.inodes) (table : x.indirect ≠ 0) {k : Nat}
    (hk : k < 1024) {c : UInt32} (spare : (V.setInode i x).Spare R c.toNat) :
    Own R ((V.setData x.indirect.toNat
      ((V.data x.indirect.toNat).write (4 * k) (leBytes 4 c.toNat))).setInode i x) := by
  refine ⟨?_, own.reserved⟩
  rw [own.slots_entry hi table hk]
  exact own.owns.link spare (i, 12 + k)

end Own

end SwiftBSD.Proof.Fs
