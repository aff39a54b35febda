import SwiftBSD.Fs.Mkfs
import SwiftBSD.Proof.Fs.Cache
import SwiftBSD.Proof.Fs.Primitives

namespace SwiftBSD.Proof.Fs
open Lib Lib.WriteBack SwiftBSD.Fs SwiftBSD.Fs.Io

variable {s t u : FsState Cache} {L : Nat → Block} {i j k n : Nat} {x : Inode}

def storedInode (n : Nat) (L : Nat → Block) (i : Nat) : Inode := .decode ((L (inodeBlock n i)).read (i % 32 * 128) 106)

def slotByte (n : Nat) (L : Nat → Block) (i k : Nat) : UInt8 := (L (inodeBlock n i)).get (i % 32 * 128 + k)

/-- The contents after inode `i` has been written. -/
def setSlot (n : Nat) (L : Nat → Block) (i : Nat) (x : Inode) : Nat → Block :=
  Function.update L (inodeBlock n i) ((L (inodeBlock n i)).write (i % 32 * 128) x.encode)

theorem slot_apart (bound : n ≤ 131072) (other : j ≠ i) (small : k < 128) : slotByte n (setSlot n L i x) j k = slotByte n L j k := by
  unfold slotByte setSlot
  by_cases same : inodeBlock n j = inodeBlock n i
  · have block := inodeBlock_inj bound same
    rw [same, Function.update_self]
    rcases Nat.lt_or_ge (j % 32) (i % 32) with before | after
    · exact Bytes.get_write_of_lt _ _ (by omega)
    · exact Bytes.get_write_of_ge _ _ (by rw [length_encode]; omega)
  · rw [Function.update_of_ne same]

theorem inode_setSlot (bound : n ≤ 131072) : storedInode n (setSlot n L i x) j = if j = i then x else storedInode n L j := by
  by_cases same : j = i
  · subst same
    rw [if_pos rfl]
    unfold storedInode setSlot
    rw [Function.update_self, decode_write_same]
  · rw [if_neg same]
    unfold storedInode
    congr 1
    refine List.map_congr_left fun k member => ?_
    exact slot_apart bound same (by have := List.mem_range.mp member; omega)

theorem run_inodeRead_cache (layout : Layout s) (inside : i < 4096 * s.nrGroups) : (inodeRead i).run s =
    some (storedInode s.nrGroups (cached s.dev) i, { s with dev := (CacheOp.get (inodeBlock s.nrGroups i)).run s.dev }) := by
  unfold inodeRead
  rw [run_bind_some (run_inodeBlockAndOffset layout inside)]
  rfl

theorem run_inodeWrite_cache (layout : Layout s) (inside : i < 4096 * s.nrGroups) (x : Inode) : (inodeWrite i x).run s =
    some ((), { s with dev := (CacheOp.modify (inodeBlock s.nrGroups i) fun b => b.write (i % 32 * 128) x.encode).run s.dev }) := by
  unfold inodeWrite
  rw [run_bind_some (run_inodeBlockAndOffset layout inside)]
  rfl

theorem Layout.withDev {c : Cache} (layout : Layout s) : Layout { s with dev := c } := { layout with }

/-- Any sequence of calls on inodes of the volume; `writes` is what has been written, the last first. -/
inductive ArrayRun (s : FsState Cache) : List (Nat × Inode) → FsState Cache → Prop
  | start : ArrayRun s [] s
  | read {writes : List (Nat × Inode)} {t u : FsState Cache} {i : Nat} {x : Inode} (before : ArrayRun s writes t) (inside : i < 4096 * s.nrGroups)
      (run : (inodeRead i).run t = some (x, u)) : ArrayRun s writes u
  | write {writes : List (Nat × Inode)} {t u : FsState Cache} {i : Nat} {x : Inode} (before : ArrayRun s writes t) (inside : i < 4096 * s.nrGroups)
      (run : (inodeWrite i x).run t = some ((), u)) : ArrayRun s ((i, x) :: writes) u

def lastWritten (writes : List (Nat × Inode)) (j : Nat) : Option Inode := (writes.find? fun w => w.1 = j).map Prod.snd

/-- The volume is as it was, and its inodes are the ones written last. -/
structure SlotsWritten (s : FsState Cache) (L : Nat → Block) (writes : List (Nat × Inode)) (t : FsState Cache) : Prop where
  layout : Layout t
  groups : t.nrGroups = s.nrGroups
  store : ∃ M, Stands t.dev M ∧ ∀ j, storedInode s.nrGroups M j = (lastWritten writes j).getD (storedInode s.nrGroups L j)

theorem arrayRun_written {writes : List (Nat × Inode)} (layout : Layout s) (stands : Stands s.dev L) (run : ArrayRun s writes t) :
    SlotsWritten s L writes t := by
  induction run with
  | start => exact ⟨layout, rfl, L, stands, fun _ => rfl⟩
  | @read writes t u i x before inside run ih =>
      obtain ⟨layout', groups, M, stands', inodes⟩ := ih
      rw [run_inodeRead_cache layout' (by rw [groups]; exact inside)] at run
      obtain ⟨-, rfl⟩ := Prod.mk.inj (Option.some.inj run)
      exact ⟨layout'.withDev, groups, M, stands'.run (.get (inodeBlock t.nrGroups i)), inodes⟩
  | @write writes t u i x before inside run ih =>
      obtain ⟨layout', groups, M, stands', inodes⟩ := ih
      rw [run_inodeWrite_cache layout' (by rw [groups]; exact inside)] at run
      obtain ⟨-, rfl⟩ := Prod.mk.inj (Option.some.inj run)
      refine ⟨layout'.withDev, groups, _, stands'.run (.modify (inodeBlock t.nrGroups i) fun b => b.write (i % 32 * 128) x.encode), fun j => ?_⟩
      have written := inode_setSlot (L := M) (i := i) (j := j) (x := x) layout.bound
      rw [groups]
      refine written.trans ?_
      unfold lastWritten
      by_cases same : j = i
      · subst same
        rw [if_pos rfl, List.find?_cons_of_pos (by simp)]
        rfl
      · rw [if_neg same, List.find?_cons_of_neg (by simpa using Ne.symm same)]
        exact inodes j

/-- After any calls `inode_read` gives what was written last, `inode_write` changes no byte of another slot, and the slots are in the inode
table of their group. -/
theorem inode_table_array {writes : List (Nat × Inode)} (layout : Layout s) (stands : Stands s.dev L) (run : ArrayRun s writes t) :
    (∀ j < 4096 * s.nrGroups, ∃ u, (inodeRead j).run t = some ((lastWritten writes j).getD (storedInode s.nrGroups L j), u)) ∧
    (∀ i < 4096 * s.nrGroups, ∀ x, ∃ u, (inodeWrite i x).run t = some ((), u) ∧
      ∀ j, j ≠ i → ∀ k < 128, slotByte s.nrGroups (cached u.dev) j k = slotByte s.nrGroups (cached t.dev) j k) ∧
    ∀ i < 4096 * s.nrGroups, ∃ block offset, (inodeBlockAndOffset i).run t = some ((block, offset), t) ∧
      (t.gd (i / 4096)).inodeTableBlock.toNat ≤ block ∧ block < (t.gd (i / 4096)).inodeTableBlock.toNat + 128 ∧ offset + 128 ≤ 4096 := by
  obtain ⟨layout', groups, M, stands', inodes⟩ := arrayRun_written layout stands run
  have contents : cached t.dev = M := funext stands'.cached
  refine ⟨fun j inside => ?_, fun i inside x => ?_, fun i inside => ?_⟩
  · have value := run_inodeRead_cache layout' (by rw [groups]; exact inside : j < 4096 * t.nrGroups)
    rw [groups, contents, inodes] at value
    exact ⟨_, value⟩
  · refine ⟨_, run_inodeWrite_cache layout' (by rw [groups]; exact inside) x, fun j other k small => ?_⟩
    have after := funext (stands'.run (CacheOp.modify (inodeBlock t.nrGroups i) fun b => b.write (i % 32 * 128) x.encode)).cached
    dsimp only
    rw [after, contents, groups]
    exact slot_apart layout.bound other small
  · have inside' : i < 4096 * t.nrGroups := by rw [groups]; exact inside
    refine ⟨_, _, run_inodeBlockAndOffset layout' inside', ?_⟩
    rw [layout'.table _ (by omega)]
    unfold inodeBlock
    omega

/-- A volume of one group, with nothing in the cache. -/
def smallVolume : FsState Cache :=
  { FsState.boot (Cache.boot ⟨fun _ => .zero⟩) fun _ => true with
    sb := (Geometry.ofMb 128).superblock
    mounted := true
    nrGroups := 1
    gd := (Geometry.ofMb 128).gd }

theorem smallVolume_layout : Layout smallVolume where
  mounted := rfl
  magic := rfl
  blockSize := rfl
  count := by decide +kernel
  positive := by decide
  bound := by decide
  desc := by decide +kernel
  bitmap := by decide +kernel
  table := by decide +kernel

/-- Two inodes of one block are written, and a third one of it is not. -/
theorem inode_table_array_two : ∃ t, ArrayRun smallVolume [(8, { Inode.zero with mode := 0x41ed }), (7, { Inode.zero with mode := 0x81a4 })] t ∧
    (∃ u, (inodeRead 7).run t = some ({ Inode.zero with mode := 0x81a4 }, u)) ∧
    (∃ u, (inodeRead 8).run t = some ({ Inode.zero with mode := 0x41ed }, u)) ∧
    ∃ u, (inodeRead 9).run t = some (storedInode 1 (fun _ => .zero) 9, u) := by
  have stands : Stands smallVolume.dev fun _ => .zero := stands_empty fun _ => rfl
  obtain ⟨t₁, first, -⟩ := (inode_table_array smallVolume_layout stands .start).2.1 7 (by decide) { Inode.zero with mode := 0x81a4 }
  have run₁ : ArrayRun smallVolume [(7, { Inode.zero with mode := 0x81a4 })] t₁ := .write .start (by decide) first
  obtain ⟨t, second, -⟩ := (inode_table_array smallVolume_layout stands run₁).2.1 8 (by decide) { Inode.zero with mode := 0x41ed }
  have run : ArrayRun smallVolume [(8, { Inode.zero with mode := 0x41ed }), (7, { Inode.zero with mode := 0x81a4 })] t :=
    .write run₁ (by decide) second
  have reads := (inode_table_array smallVolume_layout stands run).1
  exact ⟨t, run, reads 7 (by decide), reads 8 (by decide), reads 9 (by decide)⟩

end SwiftBSD.Proof.Fs
