import SwiftBSD.Fs.Swiftfs2
import SwiftBSD.Proof.Fs.Codec

namespace SwiftBSD.Proof.Fs
open Lib SwiftBSD.Fs

section Layout

def descBlocks (n : Nat) : Nat := (n + 127) / 128

def bitmapBlock (n g : Nat) : Nat := if g = 0 then 1 + descBlocks n else g * 32768

def inodeBlock (n i : Nat) : Nat := bitmapBlock n (i / 4096) + 1 + i % 4096 / 32

/-- Superblock, descriptors, bitmaps and inode tables of a volume with `n` groups. -/
def Meta (n b : Nat) : Prop :=
  b < 130 + descBlocks n ∨ (0 < b / 32768 ∧ b / 32768 < n ∧ b % 32768 < 129)

/-- The superblock and the group descriptors are those of a mounted volume of `mkfs`. -/
structure Layout {σ : Type} (s : FsState σ) : Prop where
  mounted : s.mounted = true
  magic : s.sb.magic = SwiftBSD.Fs.magic
  blockSize : s.sb.blockSize = 4096
  count : s.sb.nrGroups = s.nrGroups
  positive : 0 < s.nrGroups
  bound : s.nrGroups ≤ 131072
  desc : s.sb.groupDescCount.toNat = descBlocks s.nrGroups
  bitmap : ∀ g < s.nrGroups, (s.gd g).blockBitmapBlock.toNat = bitmapBlock s.nrGroups g
  table : ∀ g < s.nrGroups, (s.gd g).inodeTableBlock.toNat = bitmapBlock s.nrGroups g + 1

variable {n g i j : Nat}

theorem descBlocks_le (h : n ≤ 131072) : descBlocks n ≤ 1024 := by
  unfold descBlocks
  omega

theorem group_lt_desc (h : g < n) : g < 128 * descBlocks n := by
  unfold descBlocks
  omega

theorem bitmapBlock_lt (bound : n ≤ 131072) (h : g < n) : bitmapBlock n g < 2 ^ 32 - 129 := by
  have := descBlocks_le bound
  unfold bitmapBlock
  split <;> omega

theorem meta_bitmapBlock (bound : n ≤ 131072) (h : g < n) : Meta n (bitmapBlock n g) := by
  have := descBlocks_le bound
  unfold Meta bitmapBlock
  split
  · omega
  · right
    have quotient : g * 32768 / 32768 = g := by omega
    rw [quotient]
    omega

theorem meta_inodeBlock (bound : n ≤ 131072) (h : i < 4096 * n) : Meta n (inodeBlock n i) := by
  have := descBlocks_le bound
  unfold Meta inodeBlock bitmapBlock
  split
  · omega
  · right
    have quotient : (i / 4096 * 32768 + 1 + i % 4096 / 32) / 32768 = i / 4096 := by omega
    rw [quotient]
    omega

theorem inodeBlock_ne_bitmapBlock (bound : n ≤ 131072) : inodeBlock n i ≠ bitmapBlock n g := by
  have := descBlocks_le bound
  unfold inodeBlock bitmapBlock
  split <;> split <;> omega

theorem inodeBlock_inj (bound : n ≤ 131072) (h : inodeBlock n i = inodeBlock n j) : i / 32 = j / 32 := by
  have := descBlocks_le bound
  unfold inodeBlock bitmapBlock at h
  split at h <;> split at h <;> omega

theorem bitmapBlock_inj (bound : n ≤ 131072) (h : bitmapBlock n g = bitmapBlock n i) : g = i := by
  have := descBlocks_le bound
  unfold bitmapBlock at h
  split at h <;> split at h <;> omega

theorem not_meta_zero_lt {b : Nat} (h : ¬ Meta n b) : 0 < b := by
  unfold Meta at h
  omega

end Layout

section Flat
variable (s : FsState Disk)

def inodeAt (i : Nat) : Inode := .decode ((s.dev.block (inodeBlock s.nrGroups i)).read (i % 32 * 128) 106)

def bitmapOf (g : Nat) : Block := (s.bitmaps g).getD (s.dev.block (bitmapBlock s.nrGroups g))

def usedAt (b : Nat) : Bool := bitTest (bitmapOf s (b / 32768)) (b % 32768)

/-- Group `g` has no block left: its count is zero, or every bit of its bitmap is set. -/
def GroupFull (g : Nat) : Prop :=
  (s.gd g).freeBlocksCount = 0 ∨ ∀ b < 32768, bitTest (bitmapOf s g) b = true

/-- Since its answers were those of `heap`, the kernel heap has refused a request. -/
def HeapRefused (heap : Nat → Bool) : Prop := ∃ n, (∀ k, s.heap k = heap (k+n)) ∧ ∃ k < n, heap k = false

/-- Group `g` has nothing to give: it is full, or there was no memory for its bitmap. -/
def GroupOut (heap : Nat → Bool) (g : Nat) : Prop := GroupFull s g ∨ s.bitmaps g = none ∧ HeapRefused s heap

def OutOfBlocks (heap : Nat → Bool) : Prop := ∀ g < s.nrGroups, GroupOut s heap g

end Flat

structure Vol where
  groups : Nat
  inode : Nat → Inode
  used : Nat → Bool
  data : Nat → Block
  fds : Nat → Fd
  freeBlocks : UInt64
  freeInodes : UInt64
  groupFreeBlocks : Nat → UInt32
  groupFreeInodes : Nat → UInt32
  /-- No block could be found since the last one was taken or given back. -/
  exhausted : Bool
  /-- The kernel heap grants every request. -/
  roomy : Bool
  /-- The answers of the kernel heap from some moment on. -/
  answers : Option (Nat → Bool)

namespace Vol

def setInode (V : Vol) (i : Nat) (x : Inode) : Vol := { V with inode := Function.update V.inode i x }

def setData (V : Vol) (b : Nat) (v : Block) : Vol := { V with data := Function.update V.data b v }

def setFd (V : Vol) (fd : Nat) (f : Fd) : Vol := { V with fds := Function.update V.fds fd f }

def take (V : Vol) (b : Nat) : Vol :=
  { V with
    used := Function.update V.used b true
    freeBlocks := V.freeBlocks - 1
    groupFreeBlocks := Function.update V.groupFreeBlocks (b / 32768) (V.groupFreeBlocks (b / 32768) - 1)
    exhausted := false }

def give (V : Vol) (b : Nat) : Vol :=
  { V with
    used := Function.update V.used b false
    freeBlocks := V.freeBlocks + 1
    groupFreeBlocks := Function.update V.groupFreeBlocks (b / 32768) (V.groupFreeBlocks (b / 32768) + 1)
    exhausted := false }

def exhaust (V : Vol) : Vol := { V with exhausted := true }

def takeIno (V : Vol) (i : Nat) : Vol :=
  { V with
    freeInodes := V.freeInodes - 1
    groupFreeInodes := Function.update V.groupFreeInodes (i / 4096) (V.groupFreeInodes (i / 4096) - 1) }

def giveIno (V : Vol) (i : Nat) : Vol :=
  { V with
    freeInodes := V.freeInodes + 1
    groupFreeInodes := Function.update V.groupFreeInodes (i / 4096) (V.groupFreeInodes (i / 4096) + 1) }

def inodes (V : Vol) : Nat := 4096 * V.groups

def blocks (V : Vol) : Nat := 32768 * V.groups

end Vol

structure Rep (s : FsState Disk) (V : Vol) : Prop where
  layout : Layout s
  groups : s.nrGroups = V.groups
  inode : ∀ i < V.inodes, inodeAt s i = V.inode i
  used : ∀ b < V.blocks, usedAt s b = V.used b
  data : ∀ b, ¬ Meta V.groups b → s.dev.block b = V.data b
  fds : s.fds = V.fds
  freeBlocks : s.sb.freeBlocks = V.freeBlocks
  freeInodes : s.sb.freeInodes = V.freeInodes
  groupFreeBlocks : ∀ g < V.groups, (s.gd g).freeBlocksCount = V.groupFreeBlocks g
  groupFreeInodes : ∀ g < V.groups, (s.gd g).freeInodesCount = V.groupFreeInodes g
  exhausted : V.exhausted = true → ∀ heap, V.answers = some heap → OutOfBlocks s heap
  roomy : V.roomy = true → ∀ k, s.heap k = true
  answers : ∀ heap, V.answers = some heap → ∃ n, ∀ k, s.heap k = heap (k+n)

def volOf (s : FsState Disk) : Vol where
  groups := s.nrGroups
  inode := inodeAt s
  used := usedAt s
  data := s.dev.block
  fds := s.fds
  freeBlocks := s.sb.freeBlocks
  freeInodes := s.sb.freeInodes
  groupFreeBlocks := fun g => (s.gd g).freeBlocksCount
  groupFreeInodes := fun g => (s.gd g).freeInodesCount
  exhausted := false
  roomy := false
  answers := some s.heap

theorem rep_volOf {s : FsState Disk} (layout : Layout s) : Rep s (volOf s) where
  layout := layout
  groups := rfl
  inode := fun _ _ => rfl
  used := fun _ _ => rfl
  data := fun _ _ => rfl
  fds := rfl
  freeBlocks := rfl
  freeInodes := rfl
  groupFreeBlocks := fun _ _ => rfl
  groupFreeInodes := fun _ _ => rfl
  exhausted := by simp [volOf]
  roomy := by simp [volOf]
  answers := by
    intro heap same
    cases same
    exact ⟨0, fun _ => rfl⟩

end SwiftBSD.Proof.Fs
