import SwiftBSD.Proof.Fs.Fresh

namespace SwiftBSD.Proof.Fs
open Lib SwiftBSD.Fs

def filePath : CString := ⟨[0x61], by decide⟩

/-- An empty regular file, open for reading and writing in descriptor `fd`. -/
structure NewFile (s : FsState Disk) (V : Vol) (D : Nat → List (List Rec)) (i fd : Nat) : Prop where
  rep : Rep s V
  consistent : Consistent (Geometry.Reserved (Geometry.ofMb 128)) dirModes V D
  roomy : V.roomy = true
  avail : 2000 ≤ V.avail
  bound : i < V.inodes
  nonzero : i ≠ 0
  empty : V.inode i = { Inode.zero with mode := sIfreg ||| 0o644 }
  descriptor : V.fds fd = ⟨i, 0, oCreat ||| oRdwr, false⟩
  lower : 2 ≤ fd
  upper : fd < 64
  free : ∀ other ≠ fd, (V.fds other).inode = 0
  found : resolve V D filePath.bytes = some i

/-- The records of the root directory once `a` is in it. -/
def namedDir (i : Nat) : List Rec := [⟨12, 1, dot⟩, ⟨12, 1, dotdot⟩, ⟨12, i, filePath.bytes⟩, .free 4060]

theorem insertDir_root (i : Nat) : insertDir (entryLen filePath.bytes) i filePath.bytes [newDir 1 1] = some [namedDir i] := rfl

theorem lookup_namedDir {i : Nat} (nonzero : i ≠ 0) : lookup [namedDir i] filePath.bytes = some i := by
  have live : (i != 0) = true := bne_iff_ne.mpr nonzero
  simp [lookup, seen, visible, namedDir, List.takeWhile, Rec.live, live, dot, dotdot, filePath, Rec.free]

theorem lookup_newDir : lookup [newDir 1 1] filePath.bytes = none := by decide

section Created
variable {R : Nat → Prop} {V V' : Vol} {D' : Nat → List (List Rec)} {i : Nat} {r : Int}

theorem FreshVol.resolve_none (fresh : FreshVol V) : resolve V rootDirs filePath.bytes = none := by
  have components : pathComponents filePath.bytes = [filePath.bytes] := by decide
  have root : rootDirs 1 = [newDir 1 1] := rfl
  rw [resolve, components, walk, fresh.root, if_pos rfl, root, lookup_newDir]
  rfl

theorem CreatePost.fits (fresh : FreshVol V) {found : Option Nat} (post : CreatePost R V rootDirs filePath.bytes found V' D') :
    ∃ i, found = some i ∧ i ≠ 0 ∧ i ≠ 1 ∧ i < V.inodes ∧ Edited R 1 (V.allocIno (sIfreg ||| 0o644) i) V' [namedDir i] ∧
      V' = { V.allocIno (sIfreg ||| 0o644) i with data := V'.data } ∧ D' 1 = [namedDir i] := by
  have parent' : parentOf V rootDirs filePath.bytes = some 1 := rfl
  have root : rootDirs 1 = [newDir 1 1] := rfl
  have other {i : Nat} (free : V.FreeIno i) : i ≠ 1 := by
    rintro rfl
    have mode : (V.inode 1).mode = 0 := free.2.2.2
    have dir := fresh.root
    rw [Inode.isDir, mode] at dir
    cases dir
  cases post with
  | noParent parent => cases parent'.symm.trans parent
  | noInode _ full => exact absurd (fresh.freeIno (i := 2) (by omega) (by omega)) (full fresh.roomy 2)
  | @noEntry p i W bs parent free first add =>
      obtain rfl : 1 = p := Option.some.inj (parent'.symm.trans parent)
      rw [Function.update_of_ne (other free).symm, root] at add
      have inserted := insertDir_root i
      cases add with
      | full none => cases inserted.symm.trans none
      | leak none => cases inserted.symm.trans none
  | @created p i _ bs parent free first add =>
      obtain rfl : 1 = p := Option.some.inj (parent'.symm.trans parent)
      rw [Function.update_of_ne (other free).symm, root] at add
      have inserted := insertDir_root i
      cases add with
      | fit found edited data =>
          obtain rfl : [namedDir i] = bs := Option.some.inj (inserted.symm.trans found)
          exact ⟨i, rfl, Nat.pos_iff_ne_zero.mp free.1, other free, free.2.1, edited, data, Function.update_self _ _ _⟩
      | grow none => cases inserted.symm.trans none
      | lost none => cases inserted.symm.trans none

end Created

theorem newFile_spare_128 : ∃ img s₀ s V D i fd, mkfs 128 = some img ∧
    swiftfs2Mount.run (FsState.boot img fun _ => true) = some (0, s₀) ∧ ReachBoot Admissible s₀ s ∧ NewFile s V D i fd ∧
    ∃ j, V.FreeIno j := by
  obtain ⟨img, s₀, V₀, made, mounted, rep₀, fresh, dirs⟩ := fresh_128
  have consistent₀ := dirs dirModes fun x => (dirModes_isDir x).mpr
  have root : (inodeAt s₀ 1).isDir = true := by
    rw [rep₀.inode 1 (by rw [fresh.inodes]; decide)]
    exact fresh.root
  have admitted : Admissible s₀ (.open_ filePath (oCreat ||| oRdwr)) :=
    ⟨by decide, fun _ _ _ => ⟨by decide, by decide, 1, s₀, rfl, root⟩⟩
  have safe := admitted.safe rep₀ consistent₀
  obtain ⟨r, s, run⟩ := exec_isSome rep₀ consistent₀ safe
  obtain ⟨V, D, rep, consistent, -, post⟩ := exec_post rep₀ consistent₀ safe run
  have none := fresh.resolve_none
  obtain ⟨value, bytes, entries⟩ := r
  dsimp only at post
  cases post with
  | missing _ noCreat => exact absurd noCreat (by decide)
  | notCreated _ _ create =>
      obtain ⟨i, impossible, -⟩ := create.fits fresh
      cases impossible
  | existing found => cases none.symm.trans found
  | @created i _ V₁ _ D₁ _ _ _ create rest =>
      obtain ⟨j, same, nonzero, other, bound, edited, data, root'⟩ := create.fits fresh
      obtain rfl := Option.some.inj same
      have fds : V₁.fds = V₀.fds := by rw [data]; rfl
      have inode : V₁.inode i = { Inode.zero with mode := sIfreg ||| 0o644 } := by
        rw [edited.frame.inode i other]
        exact Function.update_self _ _ _
      cases rest with
      | denied writing readOnly =>
          rw [inode] at readOnly
          exact absurd readOnly (by decide)
      | noFd _ _ full =>
          refine absurd ?_ (full 2 (by omega) (by omega))
          rw [fds]
          exact fresh.fds 2
      | @opened _ V₂ _ trunc fd lower upper free =>
          cases trunc with
          | cut trunc => exact absurd (by decide) trunc
          | kept =>
              have groups : V₁.groups = V₀.groups := by rw [data]; rfl
              refine ⟨img, s₀, s, _, D, i, fd, made, mounted, .call .start admitted run, ⟨rep, consistent, ?_, ?_, ?_, nonzero, inode, ?_, lower,
                upper, fun k other => ?_, ?_⟩, ?_⟩
              · change V₁.roomy = true
                rw [data]
                exact fresh.roomy
              · change 2000 ≤ V₁.avail
                have same : V₁.avail = V₀.avail := Vol.avail_congr groups (by rw [data]; rfl) (by rw [data]; rfl)
                rw [same]
                exact fresh.avail
              · change i < 4096 * V₁.groups
                rw [groups]
                exact bound
              · exact Function.update_self _ _ _
              · simp only [Vol.setFd, Function.update_of_ne other]
                rw [fds]
                exact fresh.fds k
              · have components : pathComponents filePath.bytes = [filePath.bytes] := by decide
                have dir : (V₁.inode 1).isDir = true := by
                  have mode : (V₁.inode 1).mode = (V₀.inode 1).mode := by
                    rw [edited.mode]
                    change (Function.update V₀.inode i _ 1).mode = _
                    rw [Function.update_of_ne other.symm]
                  rw [Inode.isDir, mode]
                  exact fresh.root
                have dir' : ((V₁.setFd fd ⟨i, 0, oCreat ||| oRdwr, false⟩).inode 1).isDir = true := dir
                rw [resolve, components, walk, if_pos dir', root', lookup_namedDir nonzero]
                rfl
              · obtain ⟨j, lower', upper', distinct⟩ : ∃ j, 1 < j ∧ j < 4096 ∧ j ≠ i := by
                  by_cases two : i = 2
                  · exact ⟨3, by omega, by omega, by omega⟩
                  · exact ⟨2, by omega, by omega, fun same => two same.symm⟩
                refine ⟨j, by omega, ?_, ?_, ?_⟩
                · change j < 4096 * V₁.groups
                  rw [groups]
                  have := fresh.inodes
                  unfold Vol.inodes at this
                  omega
                · have here : i / 4096 = 0 := by
                    have := fresh.inodes
                    omega
                  have there : j / 4096 = 0 := by omega
                  change V₁.groupFreeInodes (j / 4096) ≠ 0
                  rw [edited.groupFreeInodes, there]
                  change Function.update V₀.groupFreeInodes (i / 4096) (V₀.groupFreeInodes (i / 4096) - 1) 0 ≠ 0
                  rw [here, Function.update_self, fresh.count]
                  decide
                · change (V₁.inode j).mode = 0
                  rw [edited.frame.inode j (by omega)]
                  change (Function.update V₀.inode i _ j).mode = 0
                  rw [Function.update_of_ne distinct, fresh.free j lower' upper']
                  rfl

theorem newFile_128 : ∃ img s₀ s V D i fd, mkfs 128 = some img ∧
    swiftfs2Mount.run (FsState.boot img fun _ => true) = some (0, s₀) ∧ ReachBoot Admissible s₀ s ∧ NewFile s V D i fd := by
  obtain ⟨img, s₀, s, V, D, i, fd, made, mounted, reach, file, -⟩ := newFile_spare_128
  exact ⟨img, s₀, s, V, D, i, fd, made, mounted, reach, file⟩

end SwiftBSD.Proof.Fs
