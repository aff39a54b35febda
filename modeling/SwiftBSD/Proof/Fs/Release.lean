import SwiftBSD.Proof.Fs.AddEntry

namespace SwiftBSD.Proof.Fs
open Lib SwiftBSD.Fs

variable {R : Nat → Prop} {V V' : Vol} {i : Nat} {x x' : Inode} {bs : List (List Rec)} {name : List UInt8}

inductive RemovePost (R : Nat → Prop) (V : Vol) (i : Nat) (bs : List (List Rec)) (name : List UInt8) :
    Bool → Vol → List (List Rec) → Prop
  | absent (none : removeDir name bs = none) : RemovePost R V i bs name false V bs
  | removed {V' : Vol} {bs' : List (List Rec)} (found : removeDir name bs = some bs') (edited : Edited R i V V' bs')
      (data : V' = { V with data := V'.data }) : RemovePost R V i bs name true V' bs'

inductive Cleared (V : Vol) (i : Nat) (bs : List (List Rec)) (name : List UInt8) : Bool → Vol → Prop
  | none : Cleared V i bs name false V
  | slot {V' : Vol} {k p : Nat} {rs : List Rec} (block : bs[k]? = some rs)
      (scan : removeFrom (V.data (fileBlock V.data (V.inode i) k)) name 4096 0 = some (some p))
      (same : V' = { V with data := V'.data })
      (written : V'.data = Function.update V.data (fileBlock V.data (V.inode i) k)
        (Dirent.setInode p 0 (V.data (fileBlock V.data (V.inode i) k)))) : Cleared V i bs name true V'

/-- The body of the loop of `swiftfs2_unlink`, at a block that is there. -/
def removeBlock {σ : Type} [BlockStore σ] (name : List UInt8) (p : UInt32) : FsM σ (Option Bool) := do
  let data ← cacheGet p.toNat
  match removeFrom (← load data) name 4096 0 with
  | none => failure
  | some none => return none
  | some (some pos) =>
      put data p.toNat (Dirent.setInode pos 0)
      return some true

theorem runs_removeEntry_data (dir : Directory V (V.inode i) bs) (own : Own R V) (hi : i < V.inodes)
    (nul : 0 ∉ name) (short : name.length ≤ 254) :
    Runs Rep (removeEntry (V.inode i) name) V fun r V' =>
      (∃ bs', RemovePost R V i bs name r V' bs') ∧ Cleared V i bs name r V' := by
  unfold removeEntry
  rw [if_neg (by omega)]
  refine .bind (P := fun r V' => (∃ bs', RemovePost R V i bs name (r.getD false) V' bs') ∧
    Cleared V i bs name (r.getD false) V') ?_ fun r V' h => .pure h
  refine dir.search (fun k => ∀ rs ∈ bs.take k, removeRec name rs = none) (own.inside hi)
    (E := fun _ => pure (some false)) (B := fun _ p => removeBlock name p) (fun _ => rfl) (by simp) ?_ ?_
  · intro k rs hk before
    obtain ⟨present, chain⟩ := dir.block k rs hk
    have inside := (own.inside hi).block present
    have count := chain.le
    refine .bind (runs_cacheGet _) ?_
    rintro _ V ⟨rfl, rfl⟩
    rw [toNat_ofNat_fileBlock]
    refine .bind (runs_load inside) ?_
    rintro _ V ⟨rfl, rfl⟩
    rcases removeFrom_eq nul short chain (by omega : rs.length < 4096) with
      ⟨scan, none⟩ | ⟨p, front, r, after, scan, rfl, skipped, live, same, start, here, fits, rest⟩
    · rw [scan]
      refine .pure ⟨rfl, fun q hq => ?_⟩
      rw [List.take_add_one, hk] at hq
      rcases List.mem_append.mp hq with hq | hq
      · exact before q hq
      · obtain rfl : q = rs := by simpa using hq
        exact removeRec_none none
    · rw [scan]
      have stop := rest.le
      obtain ⟨cleared, outside⟩ := chain_clear here fits.1 (by omega)
      have chain' := start.replace cleared rest outside
      have old := dir.inode _ (List.mem_of_getElem? hk)
      have bound : ∀ q ∈ front ++ ([Rec.free r.len] ++ after), q.ino < V.inodes := by
        intro q hq
        simp only [List.mem_append, List.mem_singleton] at hq
        rcases hq with hq | rfl | hq
        · exact old q (by simp [hq])
        · exact Nat.lt_of_le_of_lt (Nat.zero_le _) hi
        · exact old q (by simp [hq])
      obtain ⟨own', frame, dir'⟩ := dir.setBlock own hi hk chain' bound
      dsimp only
      refine .bind (runs_put inside _ _) ?_
      rintro _ _ rfl
      exact .pure ⟨⟨_, .removed (updateFirst_set hk before (removeRec_append skipped live same))
        ⟨own', frame, dir', rfl, rfl, rfl, rfl, rfl⟩ rfl⟩, .slot hk scan rfl rfl⟩
  · intro before
    rw [List.take_length] at before
    exact .pure ⟨false, rfl, ⟨bs, .absent (updateFirst_none before)⟩, .none⟩

theorem runs_removeEntry (dir : Directory V (V.inode i) bs) (own : Own R V) (hi : i < V.inodes)
    (nul : 0 ∉ name) (short : name.length ≤ 254) :
    Runs Rep (removeEntry (V.inode i) name) V fun r V' => ∃ bs', RemovePost R V i bs name r V' bs' :=
  (runs_removeEntry_data dir own hi nul short).mono fun _ _ post => post.1

structure Freed (V V' : Vol) : Prop where
  frame : V' = { V with
    used := V'.used
    freeBlocks := V'.freeBlocks
    groupFreeBlocks := V'.groupFreeBlocks
    exhausted := V'.exhausted }

theorem Freed.refl (V : Vol) : Freed V V := ⟨rfl⟩

theorem Freed.trans {V'' : Vol} (first : Freed V V') (second : Freed V' V'') : Freed V V'' :=
  ⟨by rw [second.frame, first.frame]⟩

theorem Free.freed {b : Nat} (free : Free V b V') : Freed V V' := by
  cases free <;> exact ⟨rfl⟩

theorem Freed.inodes (freed : Freed V V') : V'.inodes = V.inodes := by rw [freed.frame]; rfl

theorem Freed.framed (freed : Freed V V') : Frame (fun _ => False) V V' := by
  rw [freed.frame]
  exact ⟨rfl, rfl, fun _ _ => rfl, fun _ _ _ _ _ => rfl⟩

theorem Own.free {b k : Nat} (own : Own R (V.setInode i x)) (hi : i < V.inodes) (stored : slot V.data x k = b)
    (nonzero : b ≠ 0) (less : ∀ m, slot V.data x' m = 0 ∨ (slot V.data x' m = slot V.data x m ∧ m ≠ k))
    (free : Free V b V') : Own R (V'.setInode i x') := by
  have stored' : (V.setInode i x).slots (i, k) = b := by rw [slots_setInode hi, stored]
  have cleared : Owns (V.setInode i x').Used R (V.setInode i x').slots := by
    refine @Owns.clear _ _ _ (V.setInode i x).slots _ own.owns fun p => ?_
    by_cases here : p.1 = i
    · obtain ⟨j, m⟩ := p
      subst here
      rw [slots_setInode hi, slots_setInode hi]
      exact (less m).imp_right And.left
    · rw [slots_setInode_of_ne here, slots_setInode_of_ne here]
      exact .inr rfl
  have absent (p : Nat × Nat) : (V.setInode i x').slots p ≠ b := by
    intro same
    by_cases here : p.1 = i
    · obtain ⟨j, m⟩ := p
      subst here
      rw [slots_setInode hi] at same
      rcases less m with zero | ⟨old, other⟩
      · exact nonzero (same ▸ zero)
      · refine other (Prod.mk.inj (own.owns.unique (j, m) (j, k) ?_ ?_)).2
        · rw [slots_setInode hi, ← old, same]
          exact nonzero
        · rw [slots_setInode hi, ← old, same, stored']
    · rw [slots_setInode_of_ne here] at same
      have := own.owns.unique (i, k) p (by rw [stored']; exact nonzero)
        (by rw [stored', slots_setInode_of_ne here, same])
      exact here (by rw [← this])
  cases free with
  | kept => exact ⟨cleared, own.reserved⟩
  | given _ bound used =>
      refine ⟨cleared.release absent ?_ ?_, own.reserved⟩
      · have := own.owns.unreserved (i, k) (by rw [stored']; exact nonzero)
        rwa [stored'] at this
      · intro c other hc
        refine ⟨hc.1, ?_⟩
        simp only [Vol.give, Vol.setInode, Function.update_of_ne other]
        exact hc.2

def bare (x : Inode) : Inode := { x with direct := fun _ => 0, indirect := 0, doubleIndirect := 0 }

theorem slot_bare {data : Nat → Block} {x : Inode} (direct : ∀ k, x.direct k = 0) (indirect : x.indirect = 0) (m : Nat) :
    slot data x m = 0 := by
  have block : fileBlock data x m = 0 := by
    unfold fileBlock
    split
    · rw [direct]
      rfl
    · exact if_neg fun h => h.2 indirect
  rw [slot, block, indirect]
  split <;> rfl

theorem runs_freeBlocks (own : Own R (V.setInode i x)) (hi : i < V.inodes) (double : x.doubleIndirect = 0) :
    Runs Rep (freeBlocks x) V fun x' V' => x' = bare x ∧ Freed V V' ∧ Own R (V'.setInode i x') := by
  unfold freeBlocks
  refine .bind (Runs.foldlM (fun rest y W => Freed V W ∧ Own R (W.setInode i y) ∧
    y = { x with direct := y.direct } ∧ ∀ k, k ∉ rest → y.direct k = 0)
    ⟨.refl V, own, rfl, fun k hk => (hk (List.mem_finRange k)).elim⟩ ?_) ?_
  · rintro k rest y W ⟨freed, own, hy, done⟩
    have hi' : i < W.inodes := freed.inodes ▸ hi
    have value : slot W.data y k = (y.direct k).toNat := by
      rw [slot_of_lt (by omega), fileBlock, dif_pos k.isLt]
    split
    · next present =>
        refine .bind (runs_blockFree _) ?_
        rintro _ W' free
        refine .pure ⟨freed.trans free.freed, ?_, by rw [hy]; rfl, ?_⟩
        · refine own.free hi' value (fun zero => present (uint32_eq_zero.mp zero)) (fun m => ?_) free
          rw [slot_setDirect, Function.update_apply]
          split
          · exact .inl rfl
          · next other => exact .inr ⟨rfl, other⟩
        · intro m hm
          simp only [Inode.setDirect, Function.update_apply]
          split
          · rfl
          · next other => exact done m (by simp [other, hm])
    · next absent =>
        refine .pure ⟨freed, own, hy, fun m hm => ?_⟩
        by_cases same : m = k
        · rw [same]
          exact not_not.mp absent
        · exact done m (by simp [same, hm])
  · rintro y W ⟨freed, own, hy, done⟩
    have direct (k : Fin 12) : y.direct k = 0 := done k (by simp)
    have double' : y.doubleIndirect = 0 := by rw [hy]; exact double
    have hi' : i < W.inodes := freed.inodes ▸ hi
    have result : { y with indirect := 0, doubleIndirect := 0 } = bare x := by
      rw [hy, bare, show y.direct = fun _ => 0 from funext direct]
    have empty (m : Nat) : slot W.data (bare x) m = 0 := slot_bare (fun _ => rfl) rfl m
    rw [double']
    simp only [ne_eq, not_true_eq_false, if_false]
    rw [result]
    split
    · next table =>
        refine .bind (runs_blockFree _) ?_
        rintro _ W' free
        exact .pure ⟨rfl, freed.trans free.freed, own.free hi' (slot_table W.data y)
          (fun zero => table (uint32_eq_zero.mp zero)) (fun m => .inl (empty m)) free⟩
    · next noTable =>
        refine .pure ⟨rfl, freed, own.setInode_of_slot hi' ?_⟩
        funext m
        rw [empty, slot_bare direct (not_not.mp noTable)]

end SwiftBSD.Proof.Fs
