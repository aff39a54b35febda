import SwiftBSD.Proof.Fs.Areas
import SwiftBSD.Proof.Fs.Counts
import SwiftBSD.Proof.Fs.Run

namespace SwiftBSD.Proof.Fs
open Lib SwiftBSD.Fs

theorem root_in_table_256 : ∃ img s₀, mkfs 256 = some img ∧ swiftfs2Mount.run (FsState.boot img fun _ => true) = some (0, s₀) ∧
    (volOf s₀).slots (1, 0) = 129 ∧ Meta s₀.nrGroups 129 := by
  have groups : (Geometry.ofMb 256).nrGroups = 2 := by decide
  obtain ⟨img, made⟩ := mkfs_isSome (show 0 < (Geometry.ofMb 256).nrGroups by decide) (by decide) fun g last => by
    have one : g = 1 := by
      simp only [SwiftBSD.Fs.Geometry.isLast, groups, beq_iff_eq] at last
      omega
    rw [one]
    decide
  obtain ⟨bound, img₀, bm, i, prepared, bits, free, rfl⟩ := mkfs_root made
  obtain ⟨rfl, -⟩ := prepared.root_129 (by decide) bound bits free (by decide)
  obtain ⟨super, -, -, table⟩ := prepared.rooted (Nat.le_refl 129) (by decide)
  obtain ⟨s₀, mounted⟩ := mount_super super prepared.fine (by decide) (fun _ => true) ⟨rfl, rfl⟩
  have state := mount_state super mounted
  have nrGroups : s₀.nrGroups = 2 := by
    simp only [state, mountState, superblock_nrGroups bound, groups, Int.toNat_natCast]
  have dev : s₀.dev = (Geometry.ofMb 256).writeRoot 0 129 bm img₀ := by rw [state]; rfl
  refine ⟨_, s₀, made, mounted, ?_, ?_⟩
  · have root : inodeAt s₀ 1 = rootInode 129 := by
      have read := Bytes.read_write_same (.zero : Block) 128 (rootInode 129).encode (by rw [length_encode]; decide)
      rw [length_encode] at read
      have place : inodeBlock 2 1 = (Geometry.ofMb 256).gdBlocks + 2 := by decide
      unfold inodeAt
      rw [nrGroups, dev, place, table (by decide)]
      exact (congrArg Inode.decode read).trans (decode_encode _)
    have inside : 1 < (volOf s₀).inodes := by
      change 1 < 4096 * s₀.nrGroups
      rw [nrGroups]
      decide
    rw [slots_of_lt inside, slot_of_lt (by decide)]
    change fileBlock s₀.dev.block (inodeAt s₀ 1) 0 = 129
    rw [root, fileBlock_rootInode _ (by decide)]
    rfl
  · rw [nrGroups]
    exact .inl (by decide)

/-- With two groups the blocks that inodes name are not apart from the metadata. -/
theorem several_groups_shared : ¬ ∀ (sizeMb : Nat) (img : Disk) (heap : Nat → Bool) (s₀ s : FsState Disk), 128 ∣ sizeMb → mkfs sizeMb = some img →
    swiftfs2Mount.run (FsState.boot img heap) = some (0, s₀) → Reach Admissible s₀ s →
    ∀ p b, (volOf s).slots p = b → b ≠ 0 → ¬ Meta s.nrGroups b := by
  intro all
  obtain ⟨img, s₀, made, mounted, root, isMeta⟩ := root_in_table_256
  exact all 256 img _ s₀ s₀ (by decide) made mounted .start (1, 0) 129 root (by decide) isMeta

end SwiftBSD.Proof.Fs
