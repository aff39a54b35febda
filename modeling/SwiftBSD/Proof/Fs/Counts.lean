import Mathlib.Data.Finset.Card
import Mathlib.Order.Interval.Finset.Nat
import SwiftBSD.Proof.Fs.Mount

namespace SwiftBSD.Proof.Fs
open Lib SwiftBSD.Fs

variable {G : Geometry} {sizeMb d g i : Nat} {img : Disk}

def diskGd (img : Disk) (g : Nat) : Gd := Gd.ofBlocks (fun k => img.block (1 + k)) g

def diskInode (img : Disk) (i : Nat) : Inode :=
  .decode ((img.block ((diskGd img (i / 4096)).inodeTableBlock.toNat + i % 4096 / 32)).read (i % 32 * 128) 106)

def clearBlocks (G : Geometry) (img : Disk) (g : Nat) : Finset Nat := (Finset.range 32768).filter fun b =>
  g * 32768 + b < G.numBlocks ∧ bitTest (img.block (diskGd img g).blockBitmapBlock.toNat) b = false

/-- The inodes that pass the tests of `inode_alloc`. -/
def grantable (G : Geometry) (img : Disk) : Finset Nat := (Finset.range (4096 * G.nrGroups)).filter fun i =>
  i ≠ 0 ∧ (diskInode img i).mode = 0 ∧ (diskGd img (i / 4096)).freeInodesCount ≠ 0

structure CountsOk (G : Geometry) (img : Disk) : Prop where
  groups : ∀ g < G.nrGroups, (diskGd img g).freeBlocksCount.toNat = (clearBlocks G img g).card
  blocks : (Super.ofBlock (img.block 0)).freeBlocks.toNat = ∑ g ∈ Finset.range G.nrGroups, (diskGd img g).freeBlocksCount.toNat
  inodes : (Super.ofBlock (img.block 0)).freeInodes.toNat = (grantable G img).card
  accepts : ∃ s, loadGroupDescriptors.run { FsState.boot img fun _ => true with sb := .ofBlock (img.block 0) } = some (true, s)

theorem superblock_freeInodes (positive : 0 < G.nrGroups) (bound : G.nrGroups ≤ 131072) : G.superblock.freeInodes.toNat + 1 = 4096 * G.nrGroups := by
  change (UInt64.ofNat (G.nrGroups * 4096) - 1).toNat + 1 = _
  have all : (UInt64.ofNat (G.nrGroups * 4096)).toNat = G.nrGroups * 4096 := UInt64.toNat_ofNat_of_lt' (by change _ < 2 ^ 64; omega)
  rw [UInt64.toNat_sub, all]
  change (2 ^ 64 - 1 + G.nrGroups * 4096) % 2 ^ 64 + 1 = _
  omega

section Inodes
variable (formatted : Formatted G d img)
include formatted

theorem Formatted.diskGd (small : g < G.nrGroups) : diskGd img g = Geometry.gds G g := by
  refine gd_ofBlocks_toBlock _ _ g (formatted.desc _ ?_)
  rw [formatted.fine.desc]
  unfold descBlocks
  omega

theorem Formatted.diskInode (small : i < 4096 * G.nrGroups) : diskInode img i = if i = 1 then rootInode d else .zero := by
  have place : (SwiftBSD.Proof.Fs.diskGd img (i / 4096)).inodeTableBlock.toNat + i % 4096 / 32 = inodeBlock G.nrGroups i := by
    rw [formatted.diskGd (by omega), (Geometry.gds_blocks formatted.fine (by omega)).2]
    rfl
  unfold SwiftBSD.Proof.Fs.diskInode
  rw [place]
  exact formatted.table i small

theorem Formatted.freeInodesCount (small : g < G.nrGroups) : (SwiftBSD.Proof.Fs.diskGd img g).freeInodesCount ≠ 0 := by
  rw [formatted.diskGd small]
  unfold Geometry.gds
  by_cases zero : g = 0
  · rw [zero, Function.update_self]
    unfold SwiftBSD.Fs.Geometry.gd
    rw [if_pos formatted.fine.positive]
    change (4096 : UInt32) - 1 ≠ 0
    decide
  · rw [Function.update_of_ne zero]
    unfold SwiftBSD.Fs.Geometry.gd
    rw [if_pos small]
    change (4096 : UInt32) ≠ 0
    decide

theorem Formatted.grantable_eq : grantable G img = ((Finset.range (4096 * G.nrGroups)).erase 0).erase 1 := by
  ext i
  unfold grantable
  rw [Finset.mem_filter, Finset.mem_erase, Finset.mem_erase, Finset.mem_range]
  constructor
  · rintro ⟨small, some_, mode, -⟩
    refine ⟨fun root => ?_, some_, small⟩
    rw [formatted.diskInode small, if_pos root] at mode
    change sIfdir ||| 0o755 = 0 at mode
    exact absurd mode (by decide)
  · rintro ⟨other, some_, small⟩
    refine ⟨small, some_, ?_, formatted.freeInodesCount (by omega)⟩
    rw [formatted.diskInode small, if_neg other]
    rfl

theorem Formatted.card_grantable : (grantable G img).card + 2 = 4096 * G.nrGroups := by
  have positive := formatted.fine.positive
  rw [formatted.grantable_eq, Finset.card_erase_of_mem, Finset.card_erase_of_mem, Finset.card_range]
  · omega
  · exact Finset.mem_range.mpr (by omega)
  · exact Finset.mem_erase.mpr ⟨by decide, Finset.mem_range.mpr (by omega)⟩

theorem Formatted.freeInodes : (Super.ofBlock (img.block 0)).freeInodes.toNat + 1 = 4096 * G.nrGroups := by
  rw [formatted.super, super_ofBlock_toBlock]
  exact superblock_freeInodes formatted.fine.positive formatted.fine.bound

theorem Formatted.counts_off : ¬CountsOk G img := by
  intro counts
  have inodes := counts.inodes
  have := formatted.card_grantable
  have := formatted.freeInodes
  omega

end Inodes

section Several
variable {i : Nat} {bm : Block} {img₀ : Disk} (prepared : Prepared G img₀)
include prepared

theorem Prepared.tableBlock : (G.gd 0).inodeTableBlock.toNat = G.gdBlocks + 2 ∧ (G.gd 0).blockBitmapBlock.toNat = G.gdBlocks + 1 := by
  have positive := prepared.fine.positive
  have desc := prepared.fine.desc
  have few := descBlocks_le prepared.fine.bound
  simp only [SwiftBSD.Fs.Geometry.gd, positive, if_true, UInt32.toNat_ofNat', SwiftBSD.Fs.Geometry.bitmapBlock]
  omega

variable (high : 129 ≤ i) (small : i < 32768)
include high small

theorem Prepared.rooted : (G.writeRoot 0 i bm img₀).block 0 = G.superblock.toBlock ∧ diskGd (G.writeRoot 0 i bm img₀) 0 = Geometry.gds G 0 ∧
    (i ≠ G.gdBlocks + 1 → (G.writeRoot 0 i bm img₀).block (G.gdBlocks + 1) = bitSet bm i) ∧
    (i ≠ G.gdBlocks + 2 → (G.writeRoot 0 i bm img₀).block (G.gdBlocks + 2) = (Bytes.zero : Block).write 128 (rootInode i).encode) := by
  have desc := prepared.fine.desc
  have positive := prepared.fine.positive
  have few := descBlocks_le prepared.fine.bound
  have bitmap : G.bitmapBlock 0 = 1 + G.gdBlocks := if_pos rfl
  have data : (SwiftBSD.Fs.Geometry.groupStart 0 + i) % 2 ^ 32 = i := by
    unfold SwiftBSD.Fs.Geometry.groupStart
    omega
  have some_ : 0 < G.gdBlocks := by
    rw [desc]
    unfold descBlocks
    omega
  unfold SwiftBSD.Fs.Geometry.writeRoot
  rw [data, prepared.tableBlock.1, bitmap]
  dsimp only
  refine ⟨?_, ?_, fun other => ?_, fun other => ?_⟩
  · rw [block_set_of_ne _ _ (by omega), block_set_of_ne _ _ (by omega), block_set_of_ne _ _ (by omega), block_set_of_ne _ _ (by omega)]
    exact prepared.super
  · refine gd_ofBlocks_toBlock _ _ 0 ?_
    rw [Nat.zero_div, Nat.add_zero, block_set_self, block_set_of_ne _ _ (by omega), block_set_of_ne _ _ (by omega), block_set_of_ne _ _ (by omega),
      prepared.desc 0 some_, toBlock_write_zero]
    rfl
  · rw [block_set_of_ne _ _ (by omega), block_set_of_ne _ _ (by omega), block_set_of_ne _ _ (by omega), Nat.add_comm, block_set_self]
  · have zero : img₀.block (G.gdBlocks + 2) = .zero := by
      refine prepared.zero _ (by omega) fun g _ => ?_
      have place := prepared.fine.bitmapBlock (g := g) (by assumption)
      rw [← place]
      unfold SwiftBSD.Fs.Geometry.bitmapBlock SwiftBSD.Fs.Geometry.groupStart
      have := prepared.fine.bound
      split <;> omega
    rw [block_set_of_ne _ _ (by omega), block_set_of_ne _ _ (by omega), block_set_self, block_set_of_ne _ _ (by omega), zero]

theorem Prepared.counts_inode (other : i ≠ G.gdBlocks + 2) : ¬CountsOk G (G.writeRoot 0 i bm img₀) := by
  intro counts
  obtain ⟨super, gds, -, table⟩ := prepared.rooted high small
  have positive := prepared.fine.positive
  have bound := prepared.fine.bound
  have inodes := counts.inodes
  have free : (Super.ofBlock ((G.writeRoot 0 i bm img₀).block 0)).freeInodes.toNat + 1 = 4096 * G.nrGroups := by
    rw [super, super_ofBlock_toBlock]
    exact superblock_freeInodes positive bound
  have mode : (diskInode (G.writeRoot 0 i bm img₀) 1).mode ≠ 0 := by
    have place : (Geometry.gds G 0).inodeTableBlock = (G.gd 0).inodeTableBlock := by
      unfold Geometry.gds
      rw [Function.update_self]
    have read := Bytes.read_write_same (.zero : Block) 128 (rootInode i).encode (by rw [length_encode]; decide)
    rw [length_encode] at read
    unfold diskInode
    rw [gds, place, prepared.tableBlock.1]
    change (Inode.decode (((G.writeRoot 0 i bm img₀).block (G.gdBlocks + 2)).read 128 106)).mode ≠ 0
    rw [table other, read, decode_encode]
    exact (by decide : sIfdir ||| 0o755 ≠ 0)
  have subset : grantable G (G.writeRoot 0 i bm img₀) ⊆ ((Finset.range (4096 * G.nrGroups)).erase 0).erase 1 := by
    intro j member
    obtain ⟨inside, nonzero, unused, -⟩ := Finset.mem_filter.mp member
    refine Finset.mem_erase.mpr ⟨?_, Finset.mem_erase.mpr ⟨nonzero, inside⟩⟩
    rintro rfl
    exact mode unused
  have few := Finset.card_le_card subset
  rw [Finset.card_erase_of_mem (Finset.mem_erase.mpr ⟨by decide, Finset.mem_range.mpr (by omega)⟩),
    Finset.card_erase_of_mem (Finset.mem_range.mpr (by omega)), Finset.card_range] at few
  omega

theorem Prepared.counts_journal (several : 1 < G.nrGroups) (bits : G.bitmap (G.nrGroups - 1) = some bm) (other : i ≠ G.gdBlocks + 1) :
    ¬CountsOk G (G.writeRoot 0 i bm img₀) := by
  intro counts
  obtain ⟨-, gds, bitmap, -⟩ := prepared.rooted high small
  obtain ⟨marked, fits⟩ := Geometry.bitmap_bits prepared.fine bits
  have last : G.isLast (G.nrGroups - 1) = true := by
    simp only [SwiftBSD.Fs.Geometry.isLast, beq_iff_eq]
    omega
  have fits := fits last
  have same := counts.groups 0 (by omega)
  have desc := prepared.fine.desc
  have few := descBlocks_le prepared.fine.bound
  have count : (diskGd (G.writeRoot 0 i bm img₀) 0).freeBlocksCount.toNat = 32768 - (130 + G.gdBlocks) := by
    rw [gds]
    unfold Geometry.gds
    rw [Function.update_self]
    have notLast : G.isLast 0 = false := by
      simp only [SwiftBSD.Fs.Geometry.isLast, beq_eq_false_iff_ne]
      omega
    have used : G.usedBlocks 0 = 130 + G.gdBlocks := by
      unfold SwiftBSD.Fs.Geometry.usedBlocks
      rw [if_pos rfl]
      omega
    have whole : (32768 : UInt32).toNat = 32768 := rfl
    simp only [SwiftBSD.Fs.Geometry.gd, prepared.fine.positive, if_true, notLast, used, Bool.false_eq_true, if_false, UInt32.sub_zero,
      UInt32.toNat_sub, UInt32.toNat_ofNat', whole]
    omega
  have block : (diskGd (G.writeRoot 0 i bm img₀) 0).blockBitmapBlock.toNat = G.gdBlocks + 1 := by
    rw [gds]
    unfold Geometry.gds
    rw [Function.update_self]
    exact prepared.tableBlock.2
  have subset : clearBlocks G (G.writeRoot 0 i bm img₀) 0 ⊆ Finset.range 32768 \ Finset.Ico (Geometry.journalStart G (G.nrGroups - 1))
      (Geometry.journalStart G (G.nrGroups - 1) + 8192) := by
    intro b member
    obtain ⟨inside, -, clear⟩ := Finset.mem_filter.mp member
    refine Finset.mem_sdiff.mpr ⟨inside, fun journal => ?_⟩
    obtain ⟨lower, upper⟩ := Finset.mem_Ico.mp journal
    rw [block, bitmap other, bitTest_bitSet _ small, marked, decide_eq_true (.inr ⟨last, lower, upper⟩)] at clear
    cases clear
  have most := Finset.card_le_card subset
  rw [Finset.card_sdiff_of_subset fun b member => Finset.mem_range.mpr (by have := Finset.mem_Ico.mp member; omega), Finset.card_range,
    Nat.card_Ico] at most
  rw [count] at same
  omega

end Several

/-- No image has the right counts. -/
theorem counts_never (made : mkfs sizeMb = some img) : ¬CountsOk (Geometry.ofMb sizeMb) img := by
  obtain ⟨bound, img₀, bm, i, prepared, bits, free, rfl⟩ := mkfs_root made
  obtain ⟨-, small, fresh, -⟩ := prepared.findFree bits free
  have used := (prepared.fine.usedBlocks_le ((Geometry.ofMb sizeMb).nrGroups - 1)).1
  have high : 129 ≤ i := by
    by_contra low
    exact fresh (.inl (by omega))
  by_cases table : i = (Geometry.ofMb sizeMb).gdBlocks + 2
  · by_cases one : (Geometry.ofMb sizeMb).nrGroups = 1
    · obtain ⟨d, formatted⟩ := mkfs_formatted one made
      exact formatted.counts_off
    · have positive := prepared.fine.positive
      exact prepared.counts_journal high small (by omega) bits (by omega)
  · exact prepared.counts_inode high small table

theorem mkfs_128_isSome : ∃ img, mkfs 128 = some img := by
  have groups : (Geometry.ofMb 128).nrGroups = 1 := by decide
  refine mkfs_isSome (by decide) (by decide) fun g last => ?_
  have zero : g = 0 := by
    simp only [SwiftBSD.Fs.Geometry.isLast, groups, beq_iff_eq] at last
    omega
  rw [zero]
  decide

theorem counts_never_128 : ∃ img, mkfs 128 = some img ∧ ¬CountsOk (Geometry.ofMb 128) img := by
  obtain ⟨img, made⟩ := mkfs_128_isSome
  exact ⟨img, made, counts_never made⟩

/-- On the default disk the superblock counts 4095 free inodes, and 4094 can be had. -/
theorem counts_128 : ∃ img, mkfs 128 = some img ∧ (Super.ofBlock (img.block 0)).freeInodes.toNat = 4095 ∧
    (grantable (Geometry.ofMb 128) img).card = 4094 ∧ ¬CountsOk (Geometry.ofMb 128) img := by
  obtain ⟨img, made⟩ := mkfs_128_isSome
  obtain ⟨d, formatted⟩ := mkfs_formatted (by decide) made
  have groups : (Geometry.ofMb 128).nrGroups = 1 := by decide
  have free := formatted.freeInodes
  have card := formatted.card_grantable
  rw [groups] at free card
  exact ⟨img, made, by omega, by omega, formatted.counts_off⟩

end SwiftBSD.Proof.Fs
