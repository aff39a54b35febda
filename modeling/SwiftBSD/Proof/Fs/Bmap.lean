import SwiftBSD.Proof.Fs.Ownership

namespace SwiftBSD.Proof.Fs
open Lib SwiftBSD.Fs

variable {R : Nat → Prop} {V V' : Vol} {i l : Nat} {x x' : Inode}

theorem Own.table_not_meta (own : Own R (V.setInode i x)) (hi : i < V.inodes) (table : x.indirect ≠ 0) :
    ¬ Meta V.groups x.indirect.toNat := by
  have value : (V.setInode i x).slots (i, 1036) = x.indirect.toNat := by
    rw [slots_setInode hi, slot, if_pos rfl]
  have := own.not_meta (p := (i, 1036)) (by rw [value]; exact fun h => table (uint32_eq_zero.mp h))
  rwa [value] at this

theorem runs_bmapEntry {k : Nat} (hk : k < 1024) (table : x.indirect ≠ 0)
    (inside : ¬ Meta V.groups x.indirect.toNat) :
    Runs Rep (bmapEntry x k false) V fun b V' => b = .ofNat (fileBlock V.data x (12 + k)) ∧ V' = V := by
  unfold bmapEntry
  refine .bind (runs_cacheGet _) ?_
  rintro _ _ ⟨rfl, rfl⟩
  refine .bind (runs_load inside) ?_
  rintro _ _ ⟨rfl, rfl⟩
  simp only [Bool.and_false, Bool.false_eq_true, if_false]
  refine .pure ⟨?_, rfl⟩
  rw [fileBlock, dif_neg (by omega), if_pos ⟨by omega, table⟩, Nat.add_sub_cancel_left]

theorem runs_bmapRead (l : Nat) (inside : x.indirect ≠ 0 → ¬ Meta V.groups x.indirect.toNat) :
    Runs Rep (bmapRead x l false) V fun r V' => r = (.ofNat (fileBlock V.data x l), x) ∧ V' = V := by
  unfold bmapRead
  split
  · next direct =>
      simp only [Bool.and_false, Bool.false_eq_true, if_false]
      refine .pure ⟨?_, rfl⟩
      rw [fileBlock, dif_pos direct, UInt32.ofNat_toNat]
  · next direct =>
      split
      · next small =>
          split
          · next none =>
              refine .pure ⟨?_, rfl⟩
              rw [fileBlock, dif_neg direct, if_neg (fun h => h.2 none)]
              rfl
          · next table =>
              refine .bind (runs_bmapEntry small table (inside table)) ?_
              rintro _ _ ⟨rfl, rfl⟩
              refine .pure ⟨?_, rfl⟩
              rw [show 12 + (l - 12) = l by omega]
      · next large =>
          refine .pure ⟨?_, rfl⟩
          rw [fileBlock_of_ge (by omega)]
          rfl

/-- `V'` and `x'` are `V` and `x` after the file `x` was changed and given new blocks. -/
structure Extends (V : Vol) (x : Inode) (V' : Vol) (x' : Inode) : Prop where
  frame : V' = { V with
    used := V'.used
    data := V'.data
    freeBlocks := V'.freeBlocks
    groupFreeBlocks := V'.groupFreeBlocks
    exhausted := V'.exhausted }
  used : ∀ b, V.Used b → V'.Used b
  data : ∀ b, V.Used b → (∀ k, slot V.data x k ≠ b) → V'.data b = V.data b
  slots : ∀ k, slot V'.data x' k = slot V.data x k ∨
    (slot V.data x k = 0 ∧ ¬ V.Used (slot V'.data x' k))

namespace Extends

theorem refl (V : Vol) (x : Inode) : Extends V x V x := ⟨rfl, fun _ h => h, fun _ _ _ => rfl, fun _ => .inl rfl⟩

theorem exhaust (V : Vol) (x : Inode) : Extends V x V.exhaust x :=
  ⟨rfl, fun _ h => h, fun _ _ _ => rfl, fun _ => .inl rfl⟩

theorem trans {V'' : Vol} {x'' : Inode} (first : Extends V x V' x') (second : Extends V' x' V'' x'') :
    Extends V x V'' x'' where
  frame := by rw [second.frame, first.frame]
  used := fun b h => second.used b (first.used b h)
  data := by
    intro b used absent
    rw [second.data b (first.used b used), first.data b used absent]
    intro k same
    rcases first.slots k with old | ⟨-, fresh⟩
    · exact absent k (old ▸ same)
    · exact fresh (same ▸ used)
  slots := by
    intro k
    rcases second.slots k with same | ⟨empty, fresh⟩
    · rw [same]
      exact first.slots k
    · refine .inr ⟨?_, fun used => fresh (first.used _ used)⟩
      rcases first.slots k with old | ⟨none, -⟩
      · rw [← old, empty]
      · exact none

theorem groups (h : Extends V x V' x') : V'.groups = V.groups := by rw [h.frame]

theorem inodes (h : Extends V x V' x') : V'.inodes = V.inodes := by rw [Vol.inodes, h.groups, Vol.inodes]

theorem inode (h : Extends V x V' x') : V'.inode = V.inode := by rw [h.frame]

theorem other_slot (h : Extends V x V' x') (own : Own R (V.setInode i x)) (hi : i < V.inodes) {j : Nat}
    (hj : j < V.inodes) (other : j ≠ i) : slot V'.data (V.inode j) = slot V.data (V.inode j) ∧
      ∀ k, slot V.data (V.inode j) k ≠ 0 →
        V'.data (slot V.data (V.inode j) k) = V.data (slot V.data (V.inode j) k) := by
  have value (k : Nat) : (V.setInode i x).slots (j, k) = slot V.data (V.inode j) k := by
    rw [slots_setInode_of_ne (p := (j, k)) other, slots_of_lt hj]
  have same (k : Nat) (nonzero : slot V.data (V.inode j) k ≠ 0) :
      V'.data (slot V.data (V.inode j) k) = V.data (slot V.data (V.inode j) k) := by
    rw [← value k] at nonzero ⊢
    refine h.data _ (own.owns.marked _ nonzero) ?_
    intro m shared
    rw [← slots_setInode hi (V := V)] at shared
    exact other (Prod.mk.inj (own.owns.unique _ _ nonzero shared.symm)).1
  refine ⟨slot_congr fun table => ?_, same⟩
  have := same 1036
  rw [slot, if_pos rfl] at this
  exact this fun zero => table (uint32_eq_zero.mp zero)

end Extends

/-- What `bmap_read(&x, l, 1)` does: it finds or adds the block, and keeps every other. -/
structure Mapped (R : Nat → Prop) (i : Nat) (V : Vol) (x : Inode) (l : Nat) (b : UInt32) (x' : Inode) (V' : Vol) :
    Prop where
  own : Own R (V'.setInode i x')
  ext : Extends V x V' x'
  inode : x' = { x with direct := x'.direct, indirect := x'.indirect }
  keep : ∀ c, V.Used c → c ≠ x.indirect.toNat → V'.data c = V.data c
  block : b.toNat = fileBlock V'.data x' l
  others : ∀ k, k ≠ l → fileBlock V'.data x' k = fileBlock V.data x k
  stop : b = 0 → 1036 ≤ l ∨ V'.exhausted = true

theorem Mapped.found {b : UInt32} (own : Own R (V.setInode i x)) (block : b.toNat = fileBlock V.data x l)
    (stop : b = 0 → 1036 ≤ l) : Mapped R i V x l b x V :=
  ⟨own, .refl V x, rfl, fun _ _ _ => rfl, block, fun _ _ => rfl, fun h => .inl (stop h)⟩

theorem Mapped.exhausted (own : Own R (V.setInode i x)) (empty : fileBlock V.data x l = 0) :
    Mapped R i V x l 0 x V.exhaust :=
  ⟨⟨own.owns, own.reserved⟩, .exhaust V x, rfl, fun _ _ _ => rfl, empty.symm, fun _ _ => rfl, fun _ => .inr rfl⟩

theorem not_used_of_free {b : Nat} (free : V.used b = false) : ¬ V.Used b := fun used => by simp [used.2] at free

theorem Extends.of_update {k c : Nat} (frame : V' = { V with
      used := V'.used, data := V'.data, freeBlocks := V'.freeBlocks, groupFreeBlocks := V'.groupFreeBlocks
      exhausted := V'.exhausted })
    (used : ∀ b, V.Used b → V'.Used b) (data : ∀ b, V.Used b → (∀ k, slot V.data x k ≠ b) → V'.data b = V.data b)
    (slots : slot V'.data x' = Function.update (slot V.data x) k c) (empty : slot V.data x k = 0)
    (fresh : ¬ V.Used c ∨ c = 0) : Extends V x V' x' := by
  refine ⟨frame, used, data, fun m => ?_⟩
  rw [slots]
  by_cases same : m = k
  · subst same
    rw [Function.update_self]
    rcases fresh with fresh | rfl
    · exact .inr ⟨empty, fresh⟩
    · exact .inl empty.symm
  · rw [Function.update_of_ne same]
    exact .inl rfl

theorem slot_table (data : Nat → Block) (x : Inode) : slot data x 1036 = x.indirect.toNat := if_pos rfl

theorem fileBlock_eq_slot {data : Nat → Block} (l : Nat) : fileBlock data x l = if l = 1036 then 0 else slot data x l := by
  unfold slot
  split
  · exact fileBlock_of_ge (by omega)
  · rfl

theorem Mapped.entry {W : Vol} {k : Nat} {c : UInt32} (own : Own R (V.setInode i x)) (hi : i < V.inodes)
    (table : x.indirect ≠ 0) (hk : k < 1024) (empty : fileBlock V.data x (12 + k) = 0)
    (took : (c = 0 ∧ W = V.exhaust) ∨
      (c ≠ 0 ∧ c.toNat < V.blocks ∧ V.used c.toNat = false ∧ W = V.take c.toNat)) :
    Mapped R i V x (12 + k) c x
      (W.setData x.indirect.toNat ((W.data x.indirect.toNat).write (4 * k) (leBytes 4 c.toNat))) := by
  have data : W.data = V.data := by
    rcases took with ⟨-, rfl⟩ | ⟨-, -, -, rfl⟩ <;> rfl
  have slots : slot (W.setData x.indirect.toNat
      ((W.data x.indirect.toNat).write (4 * k) (leBytes 4 c.toNat))).data x =
      Function.update (slot V.data x) (12 + k) c.toNat := by
    rw [Vol.setData, data]
    exact slot_setEntry k hk c table
  have used (b : Nat) (h : V.Used b) : W.Used b := by
    rcases took with ⟨-, rfl⟩ | ⟨-, -, -, rfl⟩
    · exact h
    · exact used_take h
  have frame (b : Nat) (h : b ≠ x.indirect.toNat) :
      (W.setData x.indirect.toNat ((W.data x.indirect.toNat).write (4 * k) (leBytes 4 c.toNat))).data b =
        V.data b := by
    rw [Vol.setData, data]
    exact Function.update_of_ne h _ _
  refine ⟨?_, .of_update ?_ used ?_ slots (by rw [slot_of_lt (by omega), empty]) ?_, rfl, fun b _ => frame b, ?_, ?_, ?_⟩
  · rcases took with ⟨rfl, rfl⟩ | ⟨nonzero, bound, free, rfl⟩
    · refine ⟨?_, own.reserved⟩
      rw [Own.slots_entry (V := V.exhaust) ⟨own.owns, own.reserved⟩ hi table hk]
      refine Owns.clear (own.owns) fun p => ?_
      rw [Function.update_apply]
      split
      · exact .inl rfl
      · exact .inr rfl
    · refine Own.linkEntry (V := V.take c.toNat) own.take hi table hk ?_
      exact own.spare_take (fun zero => nonzero (uint32_eq_zero.mp zero)) bound free
  · rcases took with ⟨-, rfl⟩ | ⟨-, -, -, rfl⟩ <;> rfl
  · intro b _ absent
    exact frame b fun same => absent 1036 (by rw [slot_table, same])
  · rcases took with ⟨rfl, -⟩ | ⟨-, -, free, -⟩
    · exact .inr rfl
    · exact .inl (not_used_of_free free)
  · rw [← slot_of_lt (by omega), slots, Function.update_self]
  · intro m other
    rw [fileBlock_eq_slot, fileBlock_eq_slot, slots, Function.update_of_ne other]
  · intro zero
    rcases took with ⟨-, rfl⟩ | ⟨nonzero, -⟩
    · exact .inr rfl
    · exact (nonzero zero).elim

theorem runs_bmapEntry_create {k : Nat} (own : Own R (V.setInode i x)) (hi : i < V.inodes)
    (table : x.indirect ≠ 0) (hk : k < 1024) :
    Runs Rep (bmapEntry x k true) V fun b V' => Mapped R i V x (12 + k) b x V' := by
  have inside := own.table_not_meta hi table
  have value : (V.data x.indirect.toNat).field (4 * k) 4 = fileBlock V.data x (12 + k) := by
    rw [fileBlock, dif_neg (by omega), if_pos ⟨by omega, table⟩, Nat.add_sub_cancel_left]
  have small := fileBlock_lt V.data x (12 + k)
  unfold bmapEntry
  refine .bind (runs_cacheGet _) ?_
  rintro _ V ⟨rfl, rfl⟩
  refine .bind (runs_load inside) ?_
  rintro _ V ⟨rfl, rfl⟩
  rw [value]
  by_cases empty : fileBlock V.data x (12 + k) = 0
  · simp only [empty, decide_true, Bool.and_self, if_true]
    refine .bind (runs_blockAlloc (V := V) own.used_zero) ?_
    rintro b W took
    cases took with
    | none =>
        refine .bind (runs_put (V := V.exhaust) inside _ _) ?_
        rintro _ _ rfl
        exact .pure (.entry own hi table hk empty (.inl ⟨rfl, rfl⟩))
    | some nonzero bound free =>
        refine .bind (runs_put (V := V.take b.toNat) inside _ _) ?_
        rintro _ _ rfl
        exact .pure (.entry own hi table hk empty (.inr ⟨nonzero, bound, free, rfl⟩))
  · simp only [empty, decide_false, Bool.false_and, Bool.false_eq_true, if_false]
    refine .pure (.found own ?_ ?_)
    · rw [UInt32.toNat_ofNat', Nat.mod_eq_of_lt small]
    · intro zero
      rw [← UInt32.toNat_inj, UInt32.toNat_ofNat', Nat.mod_eq_of_lt small] at zero
      exact (empty zero).elim

section Table
variable {ind : UInt32} (own : Own R (V.setInode i x)) (hi : i < V.inodes) (none : x.indirect = 0)
  (nonzero : ind ≠ 0) (bound : ind.toNat < V.blocks) (free : V.used ind.toNat = false)
include own hi none nonzero bound free

theorem Own.newTable :
    Own R (((V.take ind.toNat).setData ind.toNat .zero).setInode i { x with indirect := ind }) := by
  have spare := own.spare_take (fun zero => nonzero (uint32_eq_zero.mp zero)) bound free
  have table := Own.spare_not_table spare
  exact Own.linkTable (V := (V.take ind.toNat).setData ind.toNat .zero) (own.take.setData .zero table) hi
    (spare.setData .zero table) none (by simp [Vol.setData])

omit own hi nonzero bound in
theorem Extends.newTable :
    Extends V x ((V.take ind.toNat).setData ind.toNat .zero) { x with indirect := ind } := by
  have fresh := not_used_of_free free
  have data (b : Nat) (used : V.Used b) : Function.update V.data ind.toNat .zero b = V.data b := by
    refine Function.update_of_ne ?_ _ _
    rintro rfl
    exact fresh used
  refine .of_update rfl (fun _ => used_take) (fun b used _ => data b used) (k := 1036) (c := ind.toNat) ?_ ?_
    (.inl fresh)
  · rw [slot_setIndirect ind none (by simp [Vol.setData])]
    congr 1
    exact slot_congr fun table => (table none).elim
  · rw [slot_table, none]
    rfl

omit own hi nonzero bound in
theorem Mapped.newTable {b : UInt32}
    (mapped : Mapped R i ((V.take ind.toNat).setData ind.toNat .zero) { x with indirect := ind } l b x' V') :
    Mapped R i V x l b x' V' where
  own := mapped.own
  ext := (Extends.newTable none free).trans mapped.ext
  inode := mapped.inode
  keep := by
    intro c used _
    have other : c ≠ ind.toNat := by
      rintro rfl
      exact not_used_of_free free used
    rw [mapped.keep c (used_take used) other]
    exact Function.update_of_ne other _ _
  block := mapped.block
  others := by
    intro k other
    rw [mapped.others k other, fileBlock_eq_slot, fileBlock_eq_slot]
    split
    · rfl
    · next table =>
        rw [slot_setIndirect ind none (by simp [Vol.setData]), Function.update_of_ne table]
        exact congrFun (slot_congr fun table => (table none).elim) k
  stop := mapped.stop

end Table

theorem runs_bmapRead_create (own : Own R (V.setInode i x)) (hi : i < V.inodes) (l : Nat) :
    Runs Rep (bmapRead x l true) V fun r V' => Mapped R i V x l r.1 r.2 V' := by
  unfold bmapRead
  split
  · next direct =>
      have value : fileBlock V.data x l = (x.direct ⟨l, direct⟩).toNat := by rw [fileBlock, dif_pos direct]
      by_cases empty : x.direct ⟨l, direct⟩ = 0
      · simp only [empty, decide_true, Bool.and_self, if_true]
        refine .bind (runs_blockAlloc (V := V) own.used_zero) ?_
        rintro b W took
        have slots (c : UInt32) : slot V.data (x.setDirect ⟨l, direct⟩ c) = _ := slot_setDirect ⟨l, direct⟩ c
        cases took with
        | none =>
            have same : x.setDirect ⟨l, direct⟩ 0 = x := by
              rw [Inode.setDirect, ← empty, Function.update_eq_self]
            rw [same]
            exact .pure (.exhausted own (by rw [value, empty]; rfl))
        | some nonzero bound free =>
            refine .pure ⟨?_, .of_update rfl (fun _ => used_take) (fun _ _ _ => rfl) (slots b) ?_ ?_, rfl,
              fun _ _ _ => rfl, ?_, ?_, fun zero => (nonzero zero).elim⟩
            · refine Own.linkDirect (V := V.take b.toNat) own.take hi ?_ _
              exact own.spare_take (fun zero => nonzero (uint32_eq_zero.mp zero)) bound free
            · rw [slot_of_lt (by simp; omega), value, empty]
              rfl
            · exact .inl (not_used_of_free free)
            · rw [← slot_of_lt (by omega)]
              exact (congrFun (slots b) l).trans (Function.update_self ..) |>.symm
            · intro m other
              rw [fileBlock_eq_slot, fileBlock_eq_slot]
              have := (congrFun (slots b) m).trans (Function.update_of_ne other ..)
              simp only [Vol.take, this]
      · simp only [empty, decide_false, Bool.false_and, Bool.false_eq_true, if_false]
        exact .pure (.found own value.symm fun zero => (empty zero).elim)
  · next direct =>
      split
      · next small =>
          have index : 12 + (l - 12) = l := by omega
          split
          · next none =>
              have empty : fileBlock V.data x l = 0 := by
                rw [fileBlock, dif_neg direct, if_neg (fun h => h.2 none)]
              simp only [if_true]
              refine .bind (runs_blockAlloc (V := V) own.used_zero) ?_
              rintro ind W took
              cases took with
              | none =>
                  simp only [if_true]
                  exact .pure (.exhausted own empty)
              | some nonzero bound free =>
                  rw [if_neg nonzero]
                  have own' := own.newTable hi none nonzero bound free
                  have inside := Own.spare_not_meta (V := (V.take ind.toNat).setInode i x) own.take
                    (own.spare_take (fun zero => nonzero (uint32_eq_zero.mp zero)) bound free)
                  refine .bind (runs_cacheGet _) ?_
                  rintro _ _ ⟨rfl, rfl⟩
                  refine .bind (runs_put (V := V.take ind.toNat) inside _ _) ?_
                  rintro _ _ rfl
                  refine .bind (runs_bmapEntry_create own' hi nonzero small) ?_
                  rintro b W mapped
                  rw [index] at mapped
                  exact .pure (.newTable none free mapped)
          · next table =>
              refine .bind (runs_bmapEntry_create own hi table small) ?_
              rintro b W mapped
              rw [index] at mapped
              exact .pure mapped
      · next large =>
          refine .pure (.found own ?_ fun _ => by omega)
          rw [fileBlock_of_ge (by omega)]
          rfl

end SwiftBSD.Proof.Fs
