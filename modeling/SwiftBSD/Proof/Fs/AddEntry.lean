import SwiftBSD.Proof.Fs.Directory

namespace SwiftBSD.Proof.Fs
open Lib SwiftBSD.Fs

variable {R : Nat → Prop} {V V' : Vol} {i child : Nat} {x x' : Inode} {bs : List (List Rec)} {name : List UInt8}
  {fileType : UInt8}

theorem length_le_entryLen (name : List UInt8) : 8 + name.length ≤ entryLen name := by
  unfold entryLen
  omega

theorem entryLen_le (short : name.length ≤ 254) : entryLen name ≤ 264 := by
  unfold entryLen
  omega

theorem runs_dirAddIn (dir : Directory V (V.inode i) bs) (own : Own R V) (hi : i < V.inodes)
    (groups : V.groups ≤ 131072) (short : name.length ≤ 254) (positive : 0 < child) (bound : child < V.inodes)
    {k : Nat} {rs : List Rec} (hk : bs[k]? = some rs) :
    Runs Rep (dirAddIn (.ofNat (fileBlock V.data (V.inode i) k)) (entryLen name) child fileType name) V
      fun r V' => match r with
        | none => V' = V ∧ insertRec (entryLen name) child name rs = none
        | some a => a = 0 ∧ V' = { V with data := V'.data } ∧ Own R V' ∧ Frame (· = i) V V' ∧
            (∃ rs', insertRec (entryLen name) child name rs = some rs' ∧ Directory V' (V.inode i) (bs.set k rs')) ∧
            ∃ p, slotFrom (V.data (fileBlock V.data (V.inode i) k)) (entryLen name) 4096 0 = some (some p) ∧
              V'.data = Function.update V.data (fileBlock V.data (V.inode i) k)
                (useSlot p (entryLen name) child fileType name (V.data (fileBlock V.data (V.inode i) k))) := by
  obtain ⟨present, chain⟩ := dir.block k rs hk
  have inside := (own.inside hi).block present
  have count := chain.le
  have small : child < 2 ^ 32 := by simp only [Vol.inodes] at bound; omega
  unfold dirAddIn
  rw [toNat_ofNat_fileBlock]
  refine .bind (runs_cacheGet _) ?_
  rintro _ V ⟨rfl, rfl⟩
  refine .bind (runs_load inside) ?_
  rintro _ V ⟨rfl, rfl⟩
  rcases @slotFrom_eq _ _ _ (entryLen name) _ chain (by omega : rs.length < 4096) with
    ⟨scan, none⟩ | ⟨p, before, r, after, scan, rfl, none, takes, start, here, rest⟩
  · rw [scan]
    exact .pure ⟨rfl, insertRec_none none⟩
  · rw [scan]
    have room := length_le_entryLen name
    obtain ⟨free, large⟩ : r.ino = 0 ∧ entryLen name ≤ r.len := by simpa [Rec.takes] using takes
    have stop := rest.le
    have fits : slotFits (V.data (fileBlock V.data (V.inode i) k)) p (entryLen name) name.length = true := by
      simp only [slotFits, recordAt_len here, Bool.and_eq_true, Bool.or_eq_true, decide_eq_true_eq]
      omega
    obtain ⟨used, same⟩ := @chain_useSlot _ _ _ _ _ fileType _ here room large (by omega) short small
      (Nat.pos_iff_ne_zero.mp positive)
    have chain' := start.replace used rest same
    have bound' : ∀ q ∈ before ++ (r.use (entryLen name) child name ++ after), q.ino < V.inodes := by
      intro q hq
      have old := dir.inode _ (List.mem_of_getElem? hk)
      rcases List.mem_append.mp hq with hq | hq
      · exact old q (by simp [hq])
      · rcases List.mem_append.mp hq with hq | hq
        · rcases ino_mem_use hq with h | h <;> omega
        · exact old q (by simp [hq])
    obtain ⟨own', frame, dir'⟩ := dir.setBlock own hi hk chain' bound'
    dsimp only
    rw [if_pos fits]
    refine .bind (runs_put inside _ _) ?_
    rintro _ _ rfl
    exact .pure ⟨rfl, rfl, own', frame, ⟨_, insertRec_append none takes, dir'⟩, p, rfl, rfl⟩

/-- A directory after block `b` was added to it as block `k`. -/
structure Grown (R : Nat → Prop) (i : Nat) (V : Vol) (x : Inode) (k : Nat) (b : Nat) (V' : Vol) (x' : Inode) :
    Prop where
  own : Own R (V'.setInode i x')
  ext : Extends V x V' x'
  keep : ∀ c, V.Used c → V'.data c = V.data c
  blocks : ∀ l, fileBlock V'.data x' l = if l = k then b else fileBlock V.data x l
  inode : x' = { x with direct := x'.direct, indirect := x'.indirect }
  table : x'.indirect ≠ 0 → x.indirect ≠ 0 ∨ k = 12

section Link
variable {b : UInt32} (own : Own R (V.setInode i x)) (hi : i < V.inodes) (nonzero : b ≠ 0)
  (bound : b.toNat < V.blocks) (free : V.used b.toNat = false)
include own nonzero bound free

theorem Own.newBlock : Own R (((V.take b.toNat).setData b.toNat .zero).setInode i x) ∧
    (((V.take b.toNat).setData b.toNat .zero).setInode i x).Spare R b.toNat := by
  have spare := own.spare_take (fun zero => nonzero (uint32_eq_zero.mp zero)) bound free
  have table := Own.spare_not_table spare
  exact ⟨own.take.setData .zero table, spare.setData .zero table⟩

omit own nonzero bound in
theorem newBlock_keep {c : Nat} (used : V.Used c) : ((V.take b.toNat).setData b.toNat .zero).data c = V.data c := by
  refine Function.update_of_ne ?_ _ _
  rintro rfl
  exact not_used_of_free free used

include hi

theorem Grown.direct (k : Fin 12) (empty : fileBlock V.data x k = 0) :
    Grown R i V x k b.toNat ((V.take b.toNat).setData b.toNat .zero) (x.setDirect k b) := by
  obtain ⟨own', spare⟩ := own.newBlock nonzero bound free
  have table : x.indirect ≠ 0 → ((V.take b.toNat).setData b.toNat .zero).data x.indirect.toNat =
      V.data x.indirect.toNat := by
    intro table
    refine newBlock_keep free ?_
    have value : (V.setInode i x).slots (i, 1036) = x.indirect.toNat := by
      rw [slots_setInode hi, slot_table]
    have := own.owns.marked (i, 1036) (by rw [value]; exact fun zero => table (uint32_eq_zero.mp zero))
    rwa [value] at this
  have slots : slot ((V.take b.toNat).setData b.toNat .zero).data (x.setDirect k b) =
      Function.update (slot V.data x) k b.toNat := by
    rw [slot_setDirect, slot_congr table]
  have hk := k.isLt
  refine ⟨own'.linkDirect hi spare k, .of_update rfl (fun _ => used_take) (fun c used _ => newBlock_keep free used)
    slots ?_ (.inl (not_used_of_free free)), fun c used => newBlock_keep free used, ?_, rfl, .inl⟩
  · rw [slot_of_lt (by omega), empty]
  · intro l
    rw [fileBlock_eq_slot, slots, fileBlock_eq_slot, Function.update_apply]
    by_cases last : l = 1036
    · rw [if_pos last, if_pos last, if_neg (by omega)]
    · rw [if_neg last, if_neg last]

theorem Grown.first (none : x.indirect = 0) {ind : UInt32} (indNonzero : ind ≠ 0) (indBound : ind.toNat < V.blocks)
    (indFree : (V.take b.toNat).used ind.toNat = false) :
    Grown R i V x 12 b.toNat
      (((((V.take b.toNat).setData b.toNat .zero).take ind.toNat).setData ind.toNat .zero).setData ind.toNat
        ((Bytes.zero : Block).write 0 (leBytes 4 b.toNat))) { x with indirect := ind } := by
  obtain ⟨own₁, spare₁⟩ := own.newBlock nonzero bound free
  have own₂ := own₁.newTable hi none indNonzero indBound indFree
  have other : b.toNat ≠ ind.toNat := by
    intro same
    rw [← same] at indFree
    simp [Vol.take] at indFree
  have indUnused : ¬ V.Used ind.toNat := fun used => not_used_of_free indFree (used_take used)
  have empty : ((((V.take b.toNat).setData b.toNat .zero).take ind.toNat).setData ind.toNat .zero).data ind.toNat =
      .zero := by simp [Vol.setData]
  have keep {c : Nat} (used : V.Used c) :
      ((((V.take b.toNat).setData b.toNat .zero).take ind.toNat).setData ind.toNat .zero).data c = V.data c := by
    refine (Function.update_of_ne ?_ _ _).trans (newBlock_keep free used)
    rintro rfl
    exact indUnused used
  have table := @slot_setIndirect _ (((((V.take b.toNat).setData b.toNat .zero).take ind.toNat).setData
    ind.toNat .zero).data) ind none empty
  have spare₂ : (((((V.take b.toNat).setData b.toNat .zero).take ind.toNat).setData ind.toNat .zero).setInode i
      { x with indirect := ind }).Spare R b.toNat := by
    have indTable := Own.spare_not_table
      (own₁.spare_take (fun zero => indNonzero (uint32_eq_zero.mp zero)) indBound indFree)
    have := (spare₁.take (b := ind.toNat)).setData .zero indTable
    unfold Vol.Spare
    rw [slots_update (V := (((V.take b.toNat).setData b.toNat .zero).take ind.toNat).setData ind.toNat .zero) hi table]
    exact Lib.Spare.link this (i, 1036) other
  have own₃ := own₂.linkEntry hi (k := 0) indNonzero (by decide) spare₂
  have entry := @slot_setEntry { x with indirect := ind } ((((V.take b.toNat).setData b.toNat .zero).take ind.toNat).setData
    ind.toNat .zero).data 0 (by decide) b indNonzero
  simp only [empty] at own₃ entry
  have old : slot ((((V.take b.toNat).setData b.toNat .zero).take ind.toNat).setData ind.toNat .zero).data x =
      slot V.data x := slot_congr fun h => (h none).elim
  rw [table, old] at entry
  refine ⟨own₃, ⟨rfl, fun c used => used_take (V := (V.take b.toNat).setData b.toNat .zero) (used_take used), ?_, ?_⟩,
    ?_, ?_, rfl, fun _ => .inr rfl⟩
  · intro c used _
    refine (Function.update_of_ne ?_ _ _).trans (keep used)
    rintro rfl
    exact indUnused used
  · intro k
    rw [Vol.setData, entry]
    by_cases twelve : k = 12
    · subst twelve
      refine .inr ⟨?_, ?_⟩
      · rw [slot_of_lt (by decide), fileBlock, dif_neg (by decide), if_neg fun h => h.2 none]
      · simpa using not_used_of_free free
    · rw [Function.update_of_ne twelve]
      by_cases last : k = 1036
      · subst last
        refine .inr ⟨?_, ?_⟩
        · rw [slot_table, none]
          rfl
        · simpa using indUnused
      · rw [Function.update_of_ne last]
        exact .inl rfl
  · intro c used
    refine (Function.update_of_ne ?_ _ _).trans (keep used)
    rintro rfl
    exact indUnused used
  · intro l
    rw [fileBlock_eq_slot, Vol.setData, entry, fileBlock_eq_slot]
    by_cases last : l = 1036
    · simp [last]
    · rw [if_neg last, if_neg last, Function.update_apply, Function.update_of_ne last]

end Link

/-- Directory `i` was changed to `bs`, and nothing else. -/
structure Edited (R : Nat → Prop) (i : Nat) (V V' : Vol) (bs : List (List Rec)) : Prop where
  own : Own R V'
  frame : Frame (· = i) V V'
  dir : Directory V' (V'.inode i) bs
  mode : (V'.inode i).mode = (V.inode i).mode
  double : (V'.inode i).doubleIndirect = (V.inode i).doubleIndirect
  fds : V'.fds = V.fds
  freeInodes : V'.freeInodes = V.freeInodes
  groupFreeInodes : V'.groupFreeInodes = V.groupFreeInodes

def newBlock (child : Nat) (name : List UInt8) : List Rec :=
  [⟨entryLen name, child, name⟩, .free (4096 - entryLen name)]

inductive AddPost (R : Nat → Prop) (V : Vol) (i : Nat) (bs : List (List Rec)) (name : List UInt8) (child : Nat) :
    Int → Vol → List (List Rec) → Prop
  | fit {V' : Vol} {bs' : List (List Rec)} (found : insertDir (entryLen name) child name bs = some bs')
      (edited : Edited R i V V' bs') (data : V' = { V with data := V'.data }) : AddPost R V i bs name child 0 V' bs'
  | full (none : insertDir (entryLen name) child name bs = none) (out : V.roomy = true → V.NoBlock) :
      AddPost R V i bs name child (-1) V.exhaust bs
  | leak {V' : Vol} {b : Nat} (none : insertDir (entryLen name) child name bs = none) (length : bs.length = 12)
      (own : Own R V') (frame : Frame (fun _ => False) V V') (fds : V'.fds = V.fds)
      (freeInodes : V'.freeInodes = V.freeInodes) (groupFreeInodes : V'.groupFreeInodes = V.groupFreeInodes)
      (bound : b < V.blocks) (free : V.used b = false) (taken : V'.used b = true)
      (out : V.roomy = true → V.avail = 1) : AddPost R V i bs name child (-1) V' bs
  | grow {V' : Vol} (none : insertDir (entryLen name) child name bs = none) (length : bs.length < 13)
      (edited : Edited R i V V' (bs ++ [newBlock child name]))
      (count : (V'.inode i).blockCount = (V.inode i).blockCount + 1)
      (took : V.avail = V'.avail + if bs.length = 12 then 2 else 1) :
      AddPost R V i bs name child 0 V' (bs ++ [newBlock child name])
  | lost {V' : Vol} (none : insertDir (entryLen name) child name bs = none) (length : bs.length = 13)
      (edited : Edited R i V V' bs) (count : (V'.inode i).blockCount = (V.inode i).blockCount + 1)
      (took : V.avail = V'.avail + 1) (blocks : ∀ l, fileBlock V'.data (V'.inode i) l = fileBlock V.data (V.inode i) l) :
      AddPost R V i bs name child 0 V' bs

inductive Added (V : Vol) (i : Nat) (bs : List (List Rec)) (name : List UInt8) (child : Nat) (fileType : UInt8) :
    Int → Vol → Prop
  | none {V' : Vol} (keep : ∀ c, V.Used c → V'.Used c ∧ V'.data c = V.data c) : Added V i bs name child fileType (-1) V'
  | slot {V' : Vol} {k p : Nat} {rs : List Rec} (block : bs[k]? = some rs)
      (scan : slotFrom (V.data (fileBlock V.data (V.inode i) k)) (entryLen name) 4096 0 = some (some p))
      (same : V' = { V with data := V'.data })
      (written : V'.data = Function.update V.data (fileBlock V.data (V.inode i) k)
        (useSlot p (entryLen name) child fileType name (V.data (fileBlock V.data (V.inode i) k)))) :
      Added V i bs name child fileType 0 V'
  | first {V' : Vol} {b : Nat} {v : Block} (fresh : ¬ V.Used b) (taken : V'.Used b) (outside : ¬ Meta V.groups b)
      (written : V'.data b = firstRecord (entryLen name) child fileType name v)
      (keep : ∀ c, V.Used c → V'.Used c ∧ V'.data c = V.data c)
      (linked : bs.length < 13 → fileBlock V'.data (V'.inode i) bs.length = b) : Added V i bs name child fileType 0 V'

def addBlock (x : Inode) : Inode := { x with size := x.size + 4096, blockCount := x.blockCount + 1 }

theorem fileBlock_addBlock (data : Nat → Block) (x : Inode) (l : Nat) :
    fileBlock data (addBlock x) l = fileBlock data x l :=
  fileBlock_pointers (by simp only [addBlock]) (by simp only [addBlock]) data l

theorem slot_addBlock (data : Nat → Block) (x : Inode) : slot data (addBlock x) = slot data x :=
  slot_pointers (by simp only [addBlock]) (by simp only [addBlock]) data

theorem inode_setData_setInode {b : Nat} {v : Block} : ((V.setInode i x).setData b v).inode i = x := by
  simp [Vol.setInode, Vol.setData]

section Write
variable {b k : Nat} {v : Block} (own : Own R V) (hi : i < V.inodes)
include own hi

theorem frame_write (ext : Extends V (V.inode i) V' x') (fresh : ¬ V.Used b) :
    Frame (· = i) V ((V'.setInode i (addBlock x')).setData b v) := by
  refine (ext.frame_setInode own hi (addBlock x')).trans ⟨rfl, rfl, fun _ _ => rfl, ?_⟩
  intro j hj other l nonzero
  have frame := ext.frame_setInode own hi (addBlock x')
  have hj' : j < V.inodes := frame.inodes ▸ hj
  rw [frame.slot_eq hj' other] at nonzero ⊢
  refine Function.update_of_ne ?_ _ _
  rintro rfl
  rw [← slots_of_lt hj'] at nonzero fresh
  exact fresh (own.owns.marked _ nonzero)

omit own in
theorem Grown.blocks_written (grown : Grown R i V (V.inode i) bs.length b V' x') (length : bs.length < 13) (nonzero : b ≠ 0)
    (l : Nat) :
    fileBlock ((V'.setInode i (addBlock x')).setData b v).data (addBlock x') l =
      if l = bs.length then b else fileBlock V.data (V.inode i) l := by
  have hi' : i < V'.inodes := grown.ext.inodes ▸ hi
  have present : fileBlock V'.data x' bs.length = b := by rw [grown.blocks, if_pos rfl]
  have value : (V'.setInode i x').slots (i, bs.length) = b := by
    rw [slots_setInode hi', slot_of_lt (by omega), present]
  have table := grown.own.not_table (i := i) (l := bs.length) (by omega) (by rw [value]; exact nonzero)
  rw [value] at table
  have ownTable : x'.indirect.toNat ≠ b := by simpa [Vol.setInode] using table i hi'
  rw [← grown.blocks, fileBlock_addBlock]
  exact fileBlock_congr (fun _ => Function.update_of_ne ownTable _ _) l

omit own hi in
theorem Own.fileBlock_used {l : Nat} (own : Own R V) (hi : i < V.inodes) (h : fileBlock V.data (V.inode i) l ≠ 0) :
    V.Used (fileBlock V.data (V.inode i) l) := by
  have := own.owns.marked (i, l)
  rw [slots_of_lt hi, slot_of_lt (lt_of_fileBlock_ne h)] at this
  exact this h

omit own hi in
theorem Grown.keep_written (grown : Grown R i V (V.inode i) k b V' x') (fresh : ¬ V.Used b) {c : Nat} (used : V.Used c) :
    ((V'.setInode i (addBlock x')).setData b v).data c = V.data c := by
  refine (Function.update_of_ne ?_ _ _).trans (grown.keep _ used)
  rintro rfl
  exact fresh used

omit own in
theorem Grown.taken (grown : Grown R i V (V.inode i) k b V' x') (small : k < 1036) (nonzero : b ≠ 0) : V'.Used b := by
  have value : (V'.setInode i x').slots (i, k) = b := by
    rw [slots_setInode (grown.ext.inodes ▸ hi), slot_of_lt small, grown.blocks, if_pos rfl]
  have := grown.own.owns.marked (i, k)
  rw [value] at this
  exact this nonzero

theorem Grown.edited (grown : Grown R i V (V.inode i) bs.length b V' x') (dir : Directory V (V.inode i) bs)
    (length : bs.length < 13) (nonzero : b ≠ 0) (fresh : ¬ V.Used b) {rs : List Rec} (chain : Chain v 0 4096 rs)
    (inos : ∀ r ∈ rs, r.ino < V.inodes) :
    Edited R i V ((V'.setInode i (addBlock x')).setData b v) (bs ++ [rs]) := by
  have here : ((V'.setInode i (addBlock x')).setData b v).inode i = addBlock x' := by
    simp [Vol.setInode, Vol.setData]
  have hi' : i < V'.inodes := grown.ext.inodes ▸ hi
  have present : fileBlock V'.data x' bs.length = b := by rw [grown.blocks, if_pos rfl]
  have value : (V'.setInode i x').slots (i, bs.length) = b := by
    rw [slots_setInode hi', slot_of_lt (by omega), present]
  have table := grown.own.not_table (i := i) (l := bs.length) (by omega) (by rw [value]; exact nonzero)
  rw [value] at table
  have ownTable : x'.indirect.toNat ≠ b := by simpa [Vol.setInode] using table i hi'
  have own' : Own R (V'.setInode i (addBlock x')) := grown.own.setInode_of_slot hi' (slot_addBlock _ _)
  have table' : ∀ j < V'.inodes, ((V'.setInode i (addBlock x')).inode j).indirect.toNat ≠ b := by
    intro j hj
    by_cases same : j = i
    · subst same
      simpa [Vol.setInode, addBlock] using ownTable
    · have := table j hj
      simpa [Vol.setInode, Function.update_of_ne same] using this
  have blocks (l : Nat) := grown.blocks_written (v := v) hi length nonzero l
  refine ⟨own'.setData v table', frame_write own hi grown.ext fresh, ?_, ?_, ?_, ?_, ?_, ?_⟩
  · rw [here]
    refine ⟨by simp; omega, ?_, ?_, ?_, ?_⟩
    · intro l rs' h
      rw [blocks]
      by_cases last : l = bs.length
      · subst last
        obtain rfl : rs = rs' := by simpa using h
        rw [if_pos rfl]
        refine ⟨nonzero, ?_⟩
        simpa [Vol.setData] using chain
      · have less : l < bs.length := by
          have := (List.getElem?_eq_some_iff.mp h).1
          simp at this
          omega
        rw [if_neg last]
        rw [List.getElem?_append_left less] at h
        obtain ⟨nonzero', chain'⟩ := dir.block l rs' h
        refine ⟨nonzero', ?_⟩
        rw [grown.keep_written fresh (own.fileBlock_used hi nonzero')]
        exact chain'
    · intro l h
      simp only [List.length_append, List.length_singleton] at h
      rw [blocks, if_neg (by omega)]
      exact dir.last l (by omega)
    · intro h
      simp only [addBlock] at h
      rw [List.length_append, List.length_singleton]
      rcases grown.table h with h | h
      · have := dir.table h
        omega
      · omega
    · intro rs' h r hr
      rw [show ((V'.setInode i (addBlock x')).setData b v).inodes = V.inodes from grown.ext.inodes]
      rcases List.mem_append.mp h with h | h
      · exact dir.inode rs' h r hr
      · obtain rfl : rs' = rs := by simpa using h
        exact inos r hr
  · rw [here, addBlock, grown.inode]
  · rw [here, addBlock, grown.inode]
  · rw [grown.ext.frame]
    rfl
  · rw [grown.ext.frame]
    rfl
  · rw [grown.ext.frame]
    rfl

theorem Edited.lost {c : UInt32} (dir : Directory V (V.inode i) bs) (nonzero : c ≠ 0) (bound : c.toNat < V.blocks)
    (free : V.used c.toNat = false) :
    Edited R i V ((((V.take c.toNat).setData c.toNat .zero).setInode i (addBlock (V.inode i))).setData c.toNat v)
      bs := by
  have own₀ : Own R (V.setInode i (V.inode i)) := by rwa [setInode_self]
  obtain ⟨own₁, spare⟩ := own₀.newBlock nonzero bound free
  have own₂ : Own R (((V.take c.toNat).setData c.toNat .zero).setInode i (addBlock (V.inode i))) :=
    own₁.setInode_of_slot hi (slot_addBlock _ _)
  have here : ((((V.take c.toNat).setData c.toNat .zero).setInode i (addBlock (V.inode i))).setData c.toNat v).inode i =
      addBlock (V.inode i) := by simp [Vol.setInode, Vol.setData]
  have table : ∀ j < V.inodes, (V.inode j).indirect.toNat ≠ c.toNat := by
    have := Own.spare_not_table spare
    intro j hj
    have := this j hj
    by_cases same : j = i
    · subst same
      simpa [Vol.setInode] using this
    · simpa [Vol.setInode, Vol.setData, Vol.take, Function.update_of_ne same] using this
  have ext : Extends V (V.inode i) ((V.take c.toNat).setData c.toNat .zero) (V.inode i) := by
    refine ⟨rfl, fun _ => used_take, fun b used _ => newBlock_keep free used, fun k => .inl ?_⟩
    exact congrFun (slot_congr fun _ => Function.update_of_ne (table i hi) _ _) k
  have fresh := not_used_of_free free
  refine ⟨own₂.setData v ?_, frame_write own hi ext fresh, ?_, ?_, ?_, rfl, rfl, rfl⟩
  · intro j hj
    by_cases same : j = i
    · subst same
      simpa [Vol.setInode, addBlock] using table j hi
    · simpa [Vol.setInode, Vol.setData, Vol.take, Function.update_of_ne same] using table j hj
  · rw [here]
    refine dir.congr rfl (fun l => ?_) (by simp only [addBlock]) (fun l present => ?_)
    · rw [fileBlock_addBlock]
      refine fileBlock_congr (fun _ => ?_) l
      exact (Function.update_of_ne (table i hi) _ _).trans (Function.update_of_ne (table i hi) _ _)
    · have used := own.fileBlock_used hi present
      refine (Function.update_of_ne ?_ _ _).trans (newBlock_keep free used)
      rintro same
      exact fresh (same ▸ used)
  · rw [here, addBlock]
  · rw [here, addBlock]

theorem fileBlock_lost {c : UInt32} (nonzero : c ≠ 0) (bound : c.toNat < V.blocks) (free : V.used c.toNat = false) (l : Nat) :
    fileBlock ((((V.take c.toNat).setData c.toNat .zero).setInode i (addBlock (V.inode i))).setData c.toNat v).data
      (((((V.take c.toNat).setData c.toNat .zero).setInode i (addBlock (V.inode i))).setData c.toNat v).inode i) l =
      fileBlock V.data (V.inode i) l := by
  have own₀ : Own R (V.setInode i (V.inode i)) := by rwa [setInode_self]
  obtain ⟨-, spare⟩ := own₀.newBlock nonzero bound free
  have table : (V.inode i).indirect.toNat ≠ c.toNat := by
    have := Own.spare_not_table spare i hi
    simpa [Vol.setInode] using this
  rw [inode_setData_setInode, fileBlock_addBlock]
  refine fileBlock_congr (fun _ => ?_) l
  exact (Function.update_of_ne table _ _).trans (Function.update_of_ne table _ _)

end Write

theorem Directory.fileBlock_length (dir : Directory V x bs) : fileBlock V.data x bs.length = 0 :=
  dir.last _ (Nat.le_refl _)

theorem runs_dirAddBlock (dir : Directory V (V.inode i) bs) (own : Own R V) (hi : i < V.inodes)
    (groups : V.groups ≤ 131072) (short : name.length ≤ 254) (positive : 0 < child) (bound : child < V.inodes)
    (none : insertDir (entryLen name) child name bs = none) :
    Runs Rep (dirAddBlock i (V.inode i) bs.length (entryLen name) child fileType name) V fun r V' =>
      (∃ bs', AddPost R V i bs name child r V' bs') ∧ Added V i bs name child fileType r V' := by
  have small : child < 2 ^ 32 := by simp only [Vol.inodes] at bound; omega
  have count := dir.count
  have large := entryLen_le short
  have own₀ : Own R (V.setInode i (V.inode i)) := by rwa [setInode_self]
  have chain (v : Block) : Chain (firstRecord (entryLen name) child fileType name v) 0 4096 (newBlock child name) :=
    chain_firstRecord (length_le_entryLen name) (by omega) short small (Nat.pos_iff_ne_zero.mp positive)
  have inos : ∀ r ∈ newBlock child name, r.ino < V.inodes := by
    intro r hr
    simp only [newBlock, List.mem_cons, List.not_mem_nil, or_false] at hr
    rcases hr with rfl | rfl
    · exact bound
    · exact Nat.lt_of_le_of_lt (Nat.zero_le _) bound
  unfold dirAddBlock
  refine .bind (runs_blockAlloc own.used_zero) ?_
  rintro b W took
  cases took with
  | none out => exact .pure ⟨⟨bs, .full none out⟩, .none fun c used => ⟨used, rfl⟩⟩
  | some nonzero inside free counted =>
      rw [if_neg nonzero]
      have took := Vol.avail_take inside free counted
      have nonzero' : b.toNat ≠ 0 := fun zero => nonzero (uint32_eq_zero.mp zero)
      have fresh := not_used_of_free free
      obtain ⟨own₁, spare⟩ := own₀.newBlock nonzero inside free
      have notMeta : ¬ Meta V.groups b.toNat := fun isMeta => spare.unreserved (own.reserved _ isMeta)
      have own₂ : Own R ((V.take b.toNat).setData b.toNat .zero) := by
        have := own₁
        rwa [show ((V.take b.toNat).setData b.toNat .zero).setInode i (V.inode i) =
          (V.take b.toNat).setData b.toNat .zero from setInode_self _ i] at this
      refine .bind (runs_cacheGet _) ?_
      rintro _ _ ⟨rfl, rfl⟩
      refine .bind (runs_put (V := V.take b.toNat) notMeta _ _) ?_
      rintro _ _ rfl
      -- the rest is the same however the block was linked
      have finish {W : Vol} {x : Inode} (grown : Grown R i V (V.inode i) bs.length b.toNat W x)
          (length : bs.length < 13) (took : V.avail = W.avail + if bs.length = 12 then 2 else 1) :
          Runs Rep (do
            inodeWrite i { x with size := x.size + 4096, blockCount := x.blockCount + 1 }
            put (σ := Disk) b.toNat b.toNat (firstRecord (entryLen name) child fileType name)
            return (0 : Int)) W fun r V' =>
              (∃ bs', AddPost R V i bs name child r V' bs') ∧ Added V i bs name child fileType r V' := by
        have hi' : i < W.inodes := grown.ext.inodes ▸ hi
        refine .bind (runs_inodeWrite hi' _) ?_
        rintro _ _ rfl
        refine .bind (runs_put (by rw [Vol.setInode, grown.ext.groups]; exact notMeta) _ _) ?_
        rintro _ _ rfl
        refine .pure ⟨⟨_, .grow none length (grown.edited own hi dir length nonzero' fresh (chain _) inos) ?_ took⟩, ?_⟩
        · simp only [Vol.setData, Vol.setInode, Function.update_self]
          rw [grown.inode]
        · have taken : W.Used b.toNat := grown.taken hi (Nat.lt_trans length (by decide)) nonzero'
          refine .first (b := b.toNat) fresh taken notMeta (Function.update_self ..)
            (fun c used => ⟨grown.ext.used c used, grown.keep_written fresh used⟩) fun _ => ?_
          have linked := grown.blocks_written (v := firstRecord (entryLen name) child fileType name (W.data b.toNat)) hi length
            nonzero' bs.length
          rw [if_pos rfl] at linked
          rw [inode_setData_setInode]
          exact linked
      unfold dirLink
      by_cases direct : bs.length < 12
      · rw [dif_pos direct]
        refine finish (.direct own₀ hi nonzero inside free ⟨bs.length, direct⟩ dir.fileBlock_length) (by omega) ?_
        rw [if_neg (by omega)]
        exact took.symm
      rw [dif_neg direct]
      by_cases first : bs.length = 12
      · have noTable : (V.inode i).indirect = 0 := by
          by_contra table
          have := dir.table table
          omega
        rw [if_pos first]
        simp only [noTable, if_true, bind_assoc]
        refine .bind (runs_blockAlloc own₁.used_zero) ?_
        rintro ind W took
        cases took with
        | none out =>
            refine .pure ⟨⟨bs, .leak none first own₂.exhaust ⟨rfl, rfl, fun _ _ => rfl, ?_⟩ rfl rfl rfl inside free ?_ ?_⟩,
              .none fun c used => ⟨used_take used, newBlock_keep free used⟩⟩
            · intro j hj _ k present
              rw [← slots_of_lt hj] at present ⊢
              exact newBlock_keep free (own.owns.marked _ present)
            · simp [Vol.take, Vol.setData, Vol.exhaust]
            · intro roomy
              have empty : (V.take b.toNat).avail = 0 := Vol.avail_eq_zero.mpr (out roomy)
              omega
        | some indNonzero indInside indFree indCounted =>
            rw [if_neg indNonzero]
            simp only [bind_assoc, pure_bind]
            have indMeta := Own.spare_not_meta (V := ((V.take b.toNat).setData b.toNat .zero).take ind.toNat) own₂.take
              (own₂.spare_take (fun zero => indNonzero (uint32_eq_zero.mp zero)) indInside indFree)
            refine .bind (runs_cacheGet _) ?_
            rintro _ _ ⟨rfl, rfl⟩
            refine .bind (runs_put (V := ((V.take b.toNat).setData b.toNat .zero).take ind.toNat) indMeta _ _) ?_
            rintro _ _ rfl
            refine .bind (runs_cacheGet _) ?_
            rintro _ _ ⟨rfl, rfl⟩
            refine .bind (runs_put (V := (((V.take b.toNat).setData b.toNat .zero).take ind.toNat).setData ind.toNat
              .zero) indMeta _ _) ?_
            rintro _ _ rfl
            have second : (((((V.take b.toNat).setData b.toNat .zero).take ind.toNat).setData ind.toNat .zero).setData
                ind.toNat ((Bytes.zero : Block).write 0 (leBytes 4 b.toNat))).avail + 1 = (V.take b.toNat).avail :=
              (congrArg (· + 1) (Vol.avail_congr rfl rfl rfl)).trans
                (Vol.avail_take (V := (V.take b.toNat).setData b.toNat .zero) indInside indFree indCounted)
            have grown := Grown.first own₀ hi nonzero inside free noTable indNonzero indInside indFree
            have empty : ((((V.take b.toNat).setData b.toNat .zero).take ind.toNat).setData ind.toNat .zero).data
                ind.toNat = .zero := by simp [Vol.setData]
            rw [← first] at grown
            rw [empty, first]
            simpa only using finish grown (by omega) (by rw [if_pos first, ← took, ← second])
      · rw [if_neg first]
        have length : bs.length = 13 := by omega
        rw [pure_bind]
        refine .bind (runs_inodeWrite (V := (V.take b.toNat).setData b.toNat .zero) hi (addBlock (V.inode i))) ?_
        rintro _ _ rfl
        refine .bind (runs_put (by exact notMeta) _ _) ?_
        rintro _ _ rfl
        refine .pure ⟨⟨bs, .lost none length (.lost own hi dir nonzero inside free) ?_ took.symm (fileBlock_lost own hi nonzero inside free)⟩, ?_⟩
        · simp only [Vol.setData, Vol.setInode, Function.update_self, addBlock]
        · have marked : (V.take b.toNat).Used b.toNat := ⟨inside, by simp [Vol.take]⟩
          refine .first (b := b.toNat) fresh marked notMeta (Function.update_self ..) (fun c used => ⟨used_take used, ?_⟩)
            fun less => by omega
          refine (Function.update_of_ne ?_ _ _).trans (newBlock_keep free used)
          rintro rfl
          exact fresh used

theorem runs_dirAddEntry_data (dir : Directory V (V.inode i) bs) (own : Own R V) (hi : i < V.inodes)
    (groups : V.groups ≤ 131072) (short : name.length ≤ 254) (positive : 0 < child) (bound : child < V.inodes) :
    Runs Rep (dirAddEntry i name child fileType) V fun r V' =>
      (∃ bs', AddPost R V i bs name child r V' bs') ∧ Added V i bs name child fileType r V' := by
  unfold dirAddEntry
  refine .bind (runs_inodeRead hi) ?_
  rintro _ V ⟨rfl, rfl⟩
  rw [if_neg (by omega)]
  refine .bind (P := fun r V' => ∃ a, r = some a ∧ (∃ bs', AddPost R V i bs name child a V' bs') ∧
    Added V i bs name child fileType a V') ?_ ?_
  · refine dir.search (fun k => ∀ rs ∈ bs.take k, insertRec (entryLen name) child name rs = none) (own.inside hi)
      (E := fun k => do return some (← dirAddBlock i (V.inode i) k (entryLen name) child fileType name))
      (B := fun _ p => dirAddIn p (entryLen name) child fileType name) (fun _ => rfl) (by simp) ?_ ?_
    · intro k rs hk before
      refine (runs_dirAddIn dir own hi groups short positive bound hk).mono ?_
      intro r V' h
      cases r with
      | none =>
          refine ⟨h.1, fun q hq => ?_⟩
          rw [List.take_add_one, hk] at hq
          rcases List.mem_append.mp hq with hq | hq
          · exact before q hq
          · obtain rfl : q = rs := by simpa using hq
            exact h.2
      | some a =>
          obtain ⟨rfl, data, own', frame, ⟨rs', found, dir'⟩, p, scan, written⟩ := h
          have inode : V'.inode = V.inode := by rw [data]
          refine ⟨0, rfl, ⟨_, .fit (updateFirst_set hk before found) ⟨own', frame, ?_, ?_, ?_, ?_, ?_, ?_⟩ data⟩,
            .slot hk scan data written⟩
          · rw [inode]
            exact dir'
          · rw [inode]
          · rw [inode]
          all_goals rw [data]
    · intro before
      rw [List.take_length] at before
      refine .bind (runs_dirAddBlock dir own hi groups short positive bound (updateFirst_none before)) ?_
      intro a V' post
      exact .pure ⟨a, rfl, a, rfl, post⟩
  · rintro _ V' ⟨a, rfl, post⟩
    exact .pure post

theorem runs_dirAddEntry (dir : Directory V (V.inode i) bs) (own : Own R V) (hi : i < V.inodes)
    (groups : V.groups ≤ 131072) (short : name.length ≤ 254) (positive : 0 < child) (bound : child < V.inodes) :
    Runs Rep (dirAddEntry i name child fileType) V fun r V' => ∃ bs', AddPost R V i bs name child r V' bs' :=
  (runs_dirAddEntry_data dir own hi groups short positive bound).mono fun _ _ post => post.1

end SwiftBSD.Proof.Fs
