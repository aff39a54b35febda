import Mathlib.Order.Interval.Finset.Nat
import SwiftBSD.Proof.Fs.Run

namespace SwiftBSD.Proof.Fs
open Lib SwiftBSD.Fs

structure FreshVol (V : Vol) : Prop where
  roomy : V.roomy = true
  avail : 2000 ≤ V.avail
  inodes : V.inodes = 4096
  root : (V.inode 1).isDir = true
  free : ∀ i, 1 < i → i < 4096 → V.inode i = .zero
  count : V.groupFreeInodes 0 = 4095
  fds : ∀ fd, (V.fds fd).inode = 0

theorem FreshVol.freeIno {V : Vol} (fresh : FreshVol V) {i : Nat} (lower : 1 < i) (upper : i < 4096) : V.FreeIno i := by
  have group : i / 4096 = 0 := by omega
  refine ⟨by omega, by rw [fresh.inodes]; exact upper, ?_, by rw [fresh.free i lower upper]; rfl⟩
  rw [group, fresh.count]
  decide

theorem not_marked_128 {b : Nat} (lower : 131 ≤ b) (upper : b < 24576) : ¬ Geometry.Marked (Geometry.ofMb 128) 0 b := by
  have used : (Geometry.ofMb 128).usedBlocks 0 = 131 := by decide
  have start : Geometry.journalStart (Geometry.ofMb 128) 0 = 24576 := by decide
  unfold Geometry.Marked
  omega

theorem Booted.avail_128 {d : Nat} {s : FsState Disk} (booted : Booted (Geometry.ofMb 128) d s) :
    2000 ≤ (volWith true s).avail := by
  have groups : (Geometry.ofMb 128).nrGroups = 1 := by decide
  have here : (volWith true s).groups = 1 := booted.groups.trans groups
  have count : (volWith true s).groupFreeBlocks 0 = 24445 := by
    have := booted.gd 0 (by omega)
    rw [volWith, volOf]
    dsimp only
    rw [this]
    decide
  have bits : (Finset.Ico 5000 7001).erase d ⊆ (volWith true s).freeBits 0 := by
    intro b hb
    obtain ⟨other, inside⟩ := Finset.mem_erase.mp hb
    rw [Finset.mem_Ico] at inside
    rw [Vol.mem_freeBits]
    refine ⟨by omega, ?_⟩
    have used := booted.used b (by omega)
    have group : b / 32768 = 0 := by omega
    have offset : b % 32768 = b := by omega
    rw [group, offset] at used
    rw [show 0 * 32768 + b = b by omega]
    refine used.trans ?_
    simp only [not_marked_128 (show 131 ≤ b by omega) (by omega), other, or_self, decide_false]
  have card := Finset.card_le_card bits
  have less : 2000 ≤ ((Finset.Ico 5000 7001).erase d).card := by
    have := Finset.pred_card_le_card_erase (s := Finset.Ico 5000 7001) (a := d)
    rw [Nat.card_Ico] at this
    omega
  have total : (volWith true s).avail = (volWith true s).groupAvail 0 := by
    unfold Vol.avail
    rw [here, Finset.sum_range_one]
  rw [total, Vol.groupAvail, count]
  have value : (24445 : UInt32).toNat = 24445 := by decide
  omega

theorem fresh_128 : ∃ img s V, mkfs 128 = some img ∧
    swiftfs2Mount.run (FsState.boot img fun _ => true) = some (0, s) ∧ Rep s V ∧ FreshVol V ∧
    ∀ K : UInt16 → Prop, (∀ x : Inode, x.isDir = true → K x.mode) →
      Consistent (Geometry.Reserved (Geometry.ofMb 128)) K V rootDirs := by
  obtain ⟨img, s, d, made, mounted, heap, formatted, booted⟩ := mkfs_128
  refine ⟨img, s, volWith true s, made, mounted, rep_volWith booted.layout fun _ => heap, ?_,
    fun K isDir => booted.consistent formatted isDir true⟩
  have groups : (Geometry.ofMb 128).nrGroups = 1 := by decide
  have here : (volWith true s).groups = 1 := booted.groups.trans groups
  have inode (i : Nat) (hi : i < 4096) : (volWith true s).inode i = if i = 1 then rootInode d else .zero :=
    booted.inode i (by omega)
  refine ⟨rfl, booted.avail_128, ?_, ?_, ?_, ?_, ?_⟩
  · rw [Vol.inodes, here]
  · rw [inode 1 (by decide), if_pos rfl]
    exact isDir_rootInode d
  · intro i lower upper
    rw [inode i upper, if_neg (by omega)]
  · have := booted.gd 0 (by omega)
    rw [volWith, volOf]
    dsimp only
    rw [this]
    decide
  · intro fd
    have : (volWith true s).fds fd = .zero := congrFun booted.fds fd
    rw [this]
    rfl

end SwiftBSD.Proof.Fs
