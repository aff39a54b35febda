import SwiftBSD.Proof.Fs.FileIO

namespace SwiftBSD.Proof.Fs
open Lib SwiftBSD.Fs

variable {R : Nat → Prop} {V V' : Vol} {i l : Nat} {x : Inode}

theorem Rep.avail {s : FsState Disk} (rep : Rep s V) : (volOf s).avail = V.avail := by
  unfold Vol.avail
  have groups : (volOf s).groups = V.groups := rep.groups
  rw [groups]
  refine Finset.sum_congr rfl fun g member => ?_
  have inside := Finset.mem_range.mp member
  have count : (volOf s).groupFreeBlocks g = V.groupFreeBlocks g := rep.groupFreeBlocks g inside
  have bits : (volOf s).freeBits g = V.freeBits g := by
    ext b
    rw [Vol.mem_freeBits, Vol.mem_freeBits]
    refine and_congr_right fun small => ?_
    have used : (volOf s).used (g * 32768 + b) = V.used (g * 32768 + b) := rep.used _ (by simp only [Vol.blocks]; omega)
    rw [used]
  rw [Vol.groupAvail, Vol.groupAvail, count, bits]

theorem Runs.left {α : Type} {m : FsM Disk α} {P : α → Vol → Prop} {Q : α → Nat → Prop} (first : Runs Rep m V P)
    (second : Runs Rep m V fun r V' => Q r V'.avail) : Runs Rep m V fun r V' => P r V' ∧ Q r V'.avail := by
  intro s rep
  obtain ⟨r, s', V₁, run, rep₁, post⟩ := first s rep
  obtain ⟨r', t, V₂, run', rep₂, left⟩ := second s rep
  obtain ⟨rfl, rfl⟩ := Prod.mk.inj (Option.some.inj (run.symm.trans run'))
  rw [← rep₂.avail, rep₁.avail] at left
  exact ⟨r, s', V₁, run, rep₁, post, left⟩

theorem runs_blockAlloc_room (zero : V.used 0 = true) (roomy : V.roomy = true) (room : 0 < V.avail) :
    Runs Rep blockAlloc V fun b V' => b ≠ 0 ∧ b.toNat < V.blocks ∧ V.used b.toNat = false ∧ V' = V.take b.toNat ∧ V'.avail + 1 = V.avail := by
  refine (runs_blockAlloc zero).mono ?_
  intro b V' took
  cases took with
  | none full =>
      have none := Vol.avail_eq_zero.mpr (full roomy)
      omega
  | some nonzero bound free count => exact ⟨nonzero, bound, free, rfl, Vol.avail_take bound free count⟩

theorem runs_bmapEntry_room (own : Own R (V.setInode i x)) (hi : i < V.inodes) (table : x.indirect ≠ 0) (roomy : V.roomy = true)
    (room : 0 < V.avail) (k : Nat) : Runs Rep (bmapEntry x k true) V fun b V' => b ≠ 0 ∧ V.avail ≤ V'.avail + 1 := by
  have inside := own.table_not_meta hi table
  unfold bmapEntry
  refine .bind (runs_cacheGet _) ?_
  rintro _ V ⟨rfl, rfl⟩
  refine .bind (runs_load inside) ?_
  rintro _ V ⟨rfl, rfl⟩
  have small : (V.data x.indirect.toNat).field (4 * k) 4 < 2 ^ 32 := by
    simpa using Bytes.field_lt (V.data x.indirect.toNat) (4 * k) 4
  by_cases empty : (V.data x.indirect.toNat).field (4 * k) 4 = 0
  · simp only [empty, decide_true, Bool.and_self, if_true]
    refine .bind (runs_blockAlloc_room own.used_zero roomy room) ?_
    rintro b _ ⟨nonzero, -, -, rfl, left⟩
    refine .bind (runs_put (V := V.take b.toNat) inside _ _) ?_
    rintro _ _ rfl
    exact .pure ⟨nonzero, Nat.le_of_eq left.symm⟩
  · simp only [empty, decide_false, Bool.false_and, Bool.false_eq_true, if_false]
    refine .pure ⟨fun zero => empty ?_, Nat.le_succ _⟩
    rw [← UInt32.toNat_inj, UInt32.toNat_ofNat', Nat.mod_eq_of_lt small] at zero
    exact zero

theorem runs_bmapRead_room (own : Own R (V.setInode i x)) (hi : i < V.inodes) (roomy : V.roomy = true) (room : 2 ≤ V.avail) (small : l < 1036) :
    Runs Rep (bmapRead x l true) V fun r V' => r.1 ≠ 0 ∧ V.avail ≤ V'.avail + 2 := by
  unfold bmapRead
  split
  · next direct =>
      by_cases empty : x.direct ⟨l, direct⟩ = 0
      · simp only [empty, decide_true, Bool.and_self, if_true]
        refine .bind (runs_blockAlloc_room own.used_zero roomy (by omega)) ?_
        rintro b _ ⟨nonzero, -, -, rfl, left⟩
        exact .pure ⟨nonzero, by omega⟩
      · simp only [empty, decide_false, Bool.false_and, Bool.false_eq_true, if_false]
        exact .pure ⟨empty, by omega⟩
  · rw [if_pos (by omega)]
    split
    · next none =>
        simp only [if_true]
        refine .bind (runs_blockAlloc_room own.used_zero roomy (by omega)) ?_
        rintro ind _ ⟨nonzero, bound, free, rfl, left⟩
        rw [if_neg nonzero]
        have own' := own.newTable hi none nonzero bound free
        have inside := Own.spare_not_meta (V := (V.take ind.toNat).setInode i x) own.take
          (own.spare_take (fun zero => nonzero (uint32_eq_zero.mp zero)) bound free)
        refine .bind (runs_cacheGet _) ?_
        rintro _ _ ⟨rfl, rfl⟩
        refine .bind (runs_put (V := V.take ind.toNat) inside _ _) ?_
        rintro _ _ rfl
        have more : 0 < ((V.take ind.toNat).setData ind.toNat .zero).avail := by
          change 0 < (V.take ind.toNat).avail
          omega
        refine .bind (runs_bmapEntry_room own' hi nonzero roomy more _) ?_
        rintro b W ⟨some_, left'⟩
        change (V.take ind.toNat).avail ≤ W.avail + 1 at left'
        exact .pure ⟨some_, by omega⟩
    · next table =>
        refine .bind (runs_bmapEntry_room own hi table roomy (by omega) _) ?_
        rintro b W ⟨some_, left⟩
        exact .pure ⟨some_, by omega⟩

theorem runs_writeLoop_room (pos : Nat) (buf : List UInt8) (n done : Nat) (own : Own R (V.setInode i x)) (hi : i < V.inodes)
    (fuel : buf.length - done ≤ n) (roomy : V.roomy = true) (limit : pos + buf.length ≤ 1036 * 4096)
    (room : done < buf.length → 2 * ((pos + buf.length + 4095) / 4096 - (pos + done) / 4096) ≤ V.avail) :
    Runs Rep (writeLoop pos buf n done x) V fun r _ => buf.length ≤ r.1 := by
  induction n generalizing done V x with
  | zero => exact .pure (by simp only; omega)
  | succ n ih =>
      unfold writeLoop
      split
      · next all => exact .pure all
      next more =>
      have room := room (by omega)
      have position : (pos + done) % 2 ^ 32 = pos + done := Nat.mod_eq_of_lt (by omega)
      refine .bind (Runs.left (Q := fun r n => r.1 ≠ 0 ∧ V.avail ≤ n + 2) (runs_bmapRead_create own hi _)
        (runs_bmapRead_room own hi roomy (by omega) (by omega))) ?_
      rintro ⟨b, x'⟩ V' ⟨mapped, nonzero, left⟩
      dsimp only at mapped nonzero ⊢
      rw [if_neg nonzero]
      have hi' : i < V'.inodes := by rwa [mapped.ext.inodes]
      have present : fileBlock V'.data x' ((pos + done) % 2 ^ 32 / 4096) ≠ 0 := by
        rw [← mapped.block]
        exact fun zero => nonzero (uint32_eq_zero.mp zero)
      have inside := mapped.own.fileBlock_not_meta hi' present
      rw [← mapped.block] at inside
      refine .bind (runs_cacheGet _) ?_
      rintro _ V' ⟨rfl, rfl⟩
      refine .bind (runs_put inside _ _) ?_
      rintro _ _ rfl
      obtain ⟨own', -⟩ := mapped.setData hi nonzero
        ((V'.data b.toNat).write ((pos + done) % 2 ^ 32 % 4096) ((buf.drop done).take (min (4096 - (pos + done) % 2 ^ 32 % 4096) (buf.length - done))))
      have roomy' : V'.roomy = true := by
        rw [mapped.ext.frame]
        exact roomy
      refine ih _ own' hi' (by omega) roomy' fun again => ?_
      change _ ≤ V'.avail
      omega

theorem runs_swiftfs2Write_room {fd : Int} {buf : List UInt8} (own : Own R V) (inside : (V.fds fd.toNat).inode < V.inodes)
    (opened : fdOpen V.fds fd = true) (writable : (V.fds fd.toNat).flags ≠ oRdonly) (roomy : V.roomy = true)
    (limit : (V.fds fd.toNat).pos + buf.length ≤ 1036 * 4096)
    (room : 2 * (((V.fds fd.toNat).pos + buf.length + 4095) / 4096 - (V.fds fd.toNat).pos / 4096) ≤ V.avail) :
    Runs Rep (swiftfs2Write fd buf) V fun r _ => r = buf.length := by
  have own' : Own R (V.setInode (V.fds fd.toNat).inode (V.inode (V.fds fd.toNat).inode)) := by rwa [setInode_self]
  unfold swiftfs2Write
  refine .bind runs_get ?_
  rintro s V ⟨rfl, rep⟩
  rw [rep.fds, opened]
  simp only [Bool.not_true, Bool.false_eq_true, if_false]
  rw [if_neg writable]
  refine .bind (runs_inodeRead inside) ?_
  rintro _ V ⟨rfl, rfl⟩
  refine .bind (Runs.left (Q := fun r _ => buf.length ≤ r.1) (runs_writeLoop _ buf _ 0 own' inside (by omega))
    (runs_writeLoop_room _ buf _ 0 own' inside (by omega) roomy limit fun _ => room)) ?_
  rintro ⟨done, x'⟩ W ⟨⟨wrote, -⟩, all⟩
  have short := wrote.length (Nat.zero_le _)
  refine .bind (runs_inodeWrite (by rw [wrote.ext.inodes]; exact inside) _) ?_
  rintro _ _ rfl
  refine .bind (runs_setPos _ _) ?_
  rintro _ _ rfl
  refine .pure ?_
  simp only at all short
  omega

end SwiftBSD.Proof.Fs
