import SwiftBSD.Lib.Partial
import SwiftBSD.Proof.Fs.AccessModes
import SwiftBSD.Proof.Fs.NewFile
import SwiftBSD.Proof.Fs.Prefixes
import SwiftBSD.Proof.Fs.Tiling

namespace SwiftBSD.Proof.Fs
open Lib SwiftBSD.Fs

variable {R : Nat → Prop} {V V' : Vol} {D : Nat → List (List Rec)} {s t : FsState Disk} {path : CString} {i p k child reclen : Nat}
  {x : Inode} {name : List UInt8} {fileType : UInt8} {flags : UInt32}

structure SameModes (V V' : Vol) : Prop where
  groups : V'.groups = V.groups
  fds : V'.fds = V.fds
  mode : ∀ j, (V'.inode j).mode = (V.inode j).mode

namespace SameModes
variable {b : Nat} {v : Block}

theorem refl (V : Vol) : SameModes V V := ⟨rfl, rfl, fun _ => rfl⟩

theorem inodes (same : SameModes V V') : V'.inodes = V.inodes := by rw [Vol.inodes, same.groups, Vol.inodes]

theorem take (same : SameModes V V') : SameModes V (V'.take b) := ⟨same.groups, same.fds, same.mode⟩

theorem setData (same : SameModes V V') : SameModes V (V'.setData b v) := ⟨same.groups, same.fds, same.mode⟩

theorem setInode (same : SameModes V V') (mode : x.mode = (V.inode i).mode) : SameModes V (V'.setInode i x) := by
  refine ⟨same.groups, same.fds, fun j => ?_⟩
  simp only [Vol.setInode, Function.update_apply]
  split
  · next here => rw [mode, here]
  · exact same.mode j

end SameModes

section Add
variable (own : Own R V) (hi : i < V.inodes) (roomy : V.roomy = true) (stock : 2 ≤ V.avail)
include own hi roomy stock

end Add

/-- The part of a path before its last slash leads to inode `p`, which is not a directory. -/
structure FileParent (s : FsState Disk) (path : CString) (p : Nat) : Prop where
  found : ∃ k, lastSlash path.bytes = some k ∧ (pathWalk (path.bytes.take k)).run s = some (some p, s)
  file : (inodeAt s p).isDir = false

/-- The call returns -1, and every regular file keeps its inode, its contents and its blocks. -/
def Refused (s : FsState Disk) (x : FsM Disk Int) : Prop :=
  ∃ t, x.run s = some (-1, t) ∧ ∀ i < 4096 * s.nrGroups, (inodeAt s i).mode ≠ 0 → (inodeAt s i).isDir = false →
    inodeAt t i = inodeAt s i ∧ fileContents t i = fileContents s i ∧ ∀ k, dirBlock t i k = dirBlock s i k

def Absent (s : FsState Disk) (path : CString) : Prop := ∀ i, (pathWalk path.bytes).run s ≠ some (some i, s)

def FreeInode (s : FsState Disk) (i : Nat) : Prop :=
  0 < i ∧ i < 4096 * s.nrGroups ∧ (s.gd (i / 4096)).freeInodesCount ≠ 0 ∧ (inodeAt s i).mode = 0

theorem Consistent.volWith (c : Consistent R dirModes V D) (rep : Rep s V) (roomy : Bool) : Consistent R dirModes (volWith roomy s) D := by
  have inodes : (Fs.volWith roomy s).inodes = V.inodes := by
    unfold Vol.inodes
    rw [← rep.groups]
    rfl
  have inode (i : Nat) (hi : i < V.inodes) : (Fs.volWith roomy s).inode i = V.inode i := rep.inode i hi
  have own := rep.own_volOf c.own
  refine ⟨rep.layout.positive, rep.layout.bound, ⟨own.owns, own.reserved⟩, fun i hi => ?_, fun i hi mode => ?_, c.isDir, fun fd => ?_⟩
  · rw [inodes] at hi
    rw [inode i hi]
    exact c.double i hi
  · rw [inodes] at hi
    rw [inode i hi] at mode ⊢
    refine (c.dirs i hi mode).congr inodes (fun l => rep.fileBlock c.own hi l) rfl fun l present => ?_
    exact rep.data _ ((c.own.inside hi).block present)
  · rw [inodes]
    have := c.fds fd
    rwa [← rep.fds] at this

section Shown
variable (rep : Rep s V) (c : Consistent R dirModes V D)
include rep c

theorem run_pathWalk_resolve {bytes : List UInt8} (nul : 0 ∉ bytes) : (pathWalk bytes).run s = some (resolve V D bytes, s) := by
  obtain ⟨r, t, W, run, -, rfl, rfl⟩ := runs_pathWalk c nul s rep
  obtain rfl := keepsAll_pathWalk bytes s _ t run
  exact run

theorem Absent.resolve (absent : Absent s path) : resolve V D path.bytes = none := by
  cases found : Fs.resolve V D path.bytes with
  | none => rfl
  | some i =>
      have run := run_pathWalk_resolve rep c path.nul
      rw [found] at run
      exact (absent i run).elim

theorem FileParent.parentOf (file : FileParent s path p) : ∃ q, parentOf V D path.bytes = some q := by
  obtain ⟨k, last, found⟩ := file.found
  have nul : 0 ∉ path.bytes.take k := fun zero => path.nul (List.mem_of_mem_take zero)
  rw [run_pathWalk_resolve rep c nul] at found
  exact parentOf_of_prefix last (Prod.mk.inj (Option.some.inj found)).1

end Shown

section Calls
variable (rep : Rep s V) (c : Consistent R dirModes V D) {mode : UInt16} {q : Nat}
include rep c

omit c in
theorem Rep.freeIno : V.FreeIno i ↔ FreeInode s i := by
  unfold Vol.FreeIno FreeInode
  rw [rep.groups]
  constructor
  · rintro ⟨positive, bound, count, zero⟩
    have group : i / 4096 < V.groups := by
      unfold Vol.inodes at bound
      omega
    refine ⟨positive, bound, ?_, ?_⟩
    · rwa [rep.groupFreeInodes _ group]
    · rwa [rep.inode i bound]
  · rintro ⟨positive, bound, count, zero⟩
    have group : i / 4096 < V.groups := by omega
    refine ⟨positive, bound, ?_, ?_⟩
    · rwa [← rep.groupFreeInodes _ group]
    · rwa [← rep.inode i bound]

section Stock
variable (roomy : V.roomy = true) (free : ∃ i, V.FreeIno i)
include roomy free

end Stock

end Calls

end SwiftBSD.Proof.Fs
