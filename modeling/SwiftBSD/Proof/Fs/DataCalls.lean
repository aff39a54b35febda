import SwiftBSD.Proof.Fs.Run

namespace SwiftBSD.Proof.Fs
open Lib SwiftBSD.Fs

variable {R : Nat → Prop} {K : UInt16 → Prop} {V V' V'' : Vol} {D D' D'' : Nat → List (List Rec)} {c : Call} {r : Result}

/-- The same inodes are directories, with the same entries. -/
structure SameNames (V : Vol) (D : Nat → List (List Rec)) (V' : Vol) (D' : Nat → List (List Rec)) : Prop where
  inodes : V'.inodes = V.inodes
  isDir : ∀ i < V.inodes, (V'.inode i).isDir = (V.inode i).isDir
  entries : ∀ i < V.inodes, (V.inode i).isDir = true → D' i = D i

namespace SameNames

theorem refl (V : Vol) (D : Nat → List (List Rec)) : SameNames V D V D := ⟨rfl, fun _ _ => rfl, fun _ _ _ => rfl⟩

theorem trans (first : SameNames V D V' D') (second : SameNames V' D' V'' D'') : SameNames V D V'' D'' where
  inodes := second.inodes.trans first.inodes
  isDir := fun i hi => (second.isDir i (first.inodes ▸ hi)).trans (first.isDir i hi)
  entries := fun i hi dir =>
    (second.entries i (first.inodes ▸ hi) ((first.isDir i hi).trans dir)).trans (first.entries i hi dir)

theorem walk_eq (names : SameNames V D V' D') (consistent : Consistent R K V D) {cs : List (List UInt8)} {i : Nat}
    (hi : i < V.inodes) : walk V' D' i cs = walk V D i cs := by
  induction cs generalizing i with
  | nil => rfl
  | cons name cs ih =>
      unfold walk
      rw [names.isDir i hi]
      split
      · next dir =>
          rw [names.entries i hi dir]
          cases found : lookup (D i) name with
          | none => rfl
          | some j => exact ih (consistent.lookup_lt hi dir found)
      · rfl

theorem resolve_eq (names : SameNames V D V' D') (consistent : Consistent R K V D) (path : List UInt8) :
    resolve V' D' path = resolve V D path := names.walk_eq consistent consistent.root

end SameNames

theorem TruncPost.sameNames {i : Nat} {flags : UInt32} (post : TruncPost R V D i flags V' D')
    (file : flags &&& oTrunc ≠ 0 → (V.inode i).isDir = false) : SameNames V D V' D' := by
  cases post with
  | kept => exact .refl V D
  | @cut W h freed own =>
      have inode (j : Nat) : (W.setInode i (truncated (V.inode i))).inode j = if j = i then truncated (V.inode i) else V.inode j := by
        simp only [Vol.setInode, Function.update_apply]
        rw [freed.frame]
      refine ⟨freed.inodes, fun j _ => ?_, fun j _ dir => ?_⟩
      · rw [inode]
        split
        · next same => rw [same]; rfl
        · rfl
      · refine Function.update_of_ne ?_ _ _
        rintro rfl
        rw [file h] at dir
        cases dir

theorem TruncPost.emptied {i : Nat} {flags : UInt32} (post : TruncPost R V D i flags V' D') (h : flags &&& oTrunc ≠ 0) :
    D' i = [] := by
  cases post with
  | kept none => exact (h none).elim
  | cut => exact Function.update_self _ _ _

theorem OpenInoPost.sameNames {i : Nat} {flags : UInt32} {r : Int} (post : OpenInoPost R V D i flags r V' D')
    (file : ¬ (flags &&& (oWronly ||| oRdwr) ≠ 0 ∧ (V.inode i).mode &&& sIwusr = 0) → flags &&& oTrunc ≠ 0 →
      (V.inode i).isDir = false) : SameNames V D V' D' := by
  cases post with
  | denied => exact .refl V D
  | noFd allowed trunc => exact trunc.sameNames (file allowed)
  | opened allowed trunc =>
      have names := trunc.sameNames (file allowed)
      exact ⟨names.inodes, names.isDir, names.entries⟩

/-- The calls that read and write files: an open does not create, and what is truncated or written to is no
directory. -/
def DataCall (s : FsState Disk) : Call → Prop
  | .open_ path flags => flags &&& oCreat = 0 ∧ (flags &&& oTrunc ≠ 0 → ∀ i t, (pathWalk path.bytes).run s = some (some i, t) →
      ¬ (flags &&& (oWronly ||| oRdwr) ≠ 0 ∧ (inodeAt s i).mode &&& sIwusr = 0) → (inodeAt s i).isDir = false)
  | .read _ _ => True
  | .write fd _ => fdOpen s.fds fd = true → (s.fds fd.toNat).flags ≠ oRdonly →
      (inodeAt s (s.fds fd.toNat).inode).isDir = false
  | .close _ => True
  | _ => False

theorem DataCall.safe {s : FsState Disk} (rep : Rep s V) (consistent : Consistent R dirModes V D)
    (data : DataCall s c) : Call.Safe dirModes V D c := by
  cases c with
  | open_ path flags =>
      intro _ creat
      exact (creat data.1).elim
  | write fd buf =>
      intro opened writable
      have file := data (by rw [rep.fds]; exact opened) (by rw [rep.fds]; exact writable)
      rw [rep.fds, rep.inode _ (consistent.fds _)] at file
      rw [dirModes_isDir, file]
      decide
  | mkdir => exact data.elim
  | unlink => exact data.elim
  | read => trivial
  | close => trivial
  | ls => trivial
  | sync => trivial

theorem DataCall.sameNames {s : FsState Disk} (rep : Rep s V) (consistent : Consistent R dirModes V D)
    (data : DataCall s c) (post : Call.Post R V D r V' D' c) : SameNames V D V' D' := by
  obtain ⟨value, bytes, entries⟩ := r
  cases c with
  | open_ path flags =>
      obtain ⟨-, post⟩ := post
      obtain ⟨noCreat, file⟩ := data
      cases post with
      | missing => exact .refl V D
      | notCreated _ creat => exact (creat noCreat).elim
      | created _ creat => exact (creat noCreat).elim
      | @existing i _ _ _ found rest =>
          refine rest.sameNames fun allowed trunc => ?_
          obtain ⟨t, run, -⟩ := run_pathWalk rep consistent path
          rw [found] at run
          have := file trunc i t run
          rw [rep.inode i (consistent.resolve_lt found)] at this
          exact this allowed
  | read fd size =>
      obtain ⟨-, read, rfl⟩ := post
      cases read <;> exact ⟨rfl, fun _ _ => rfl, fun _ _ _ => rfl⟩
  | write fd buf =>
      obtain ⟨-, write, rfl⟩ := post
      refine ⟨(write.frame consistent).inodes, fun i _ => ?_, fun _ _ _ => rfl⟩
      rw [Inode.isDir, write.mode i]
      rfl
  | close fd =>
      obtain ⟨rfl, ⟨-, rfl, -⟩ | ⟨-, rfl⟩⟩ := post <;> exact ⟨rfl, fun _ _ => rfl, fun _ _ _ => rfl⟩
  | mkdir => exact data.elim
  | unlink => exact data.elim
  | ls => exact data.elim
  | sync => exact data.elim

theorem reach_sameNames {s t : FsState Disk} (rep : Rep s V) (consistent : Consistent R dirModes V D)
    (reach : Reach DataCall s t) :
    ∃ V' D', Rep t V' ∧ Consistent R dirModes V' D' ∧ SameNames V D V' D' := by
  induction reach with
  | start => exact ⟨V, D, rep, consistent, .refl V D⟩
  | call before data run ih =>
      obtain ⟨V₁, D₁, rep₁, consistent₁, names⟩ := ih
      obtain ⟨V', D', rep', consistent', post⟩ := exec_post rep₁ consistent₁ (data.safe rep₁ consistent₁) run
      exact ⟨V', D', rep', consistent', names.trans (data.sameNames rep₁ consistent₁ post)⟩

theorem data_calls_keep_names {s t : FsState Disk} (sound : Sound R dirModes s) (reach : Reach DataCall s t)
    (path : CString) : ∃ found s' t', (pathWalk path.bytes).run s = some (found, s') ∧
      (pathWalk path.bytes).run t = some (found, t') := by
  obtain ⟨V, D, rep, consistent⟩ := sound
  obtain ⟨V', D', rep', consistent', names⟩ := reach_sameNames rep consistent reach
  obtain ⟨s', before, -⟩ := run_pathWalk rep consistent path
  obtain ⟨t', after, -⟩ := run_pathWalk rep' consistent' path
  rw [names.resolve_eq consistent] at after
  exact ⟨_, s', t', before, after⟩

def rootPath : CString := ⟨[0x2f], by decide⟩
def dotPath : CString := ⟨[0x2f, 0x2e], by decide⟩

theorem data_calls_keep_names_root : ∃ img s₀ r₁ s₁ r₂ s₂, mkfs 128 = some img ∧
    swiftfs2Mount.run (FsState.boot img fun _ => true) = some (0, s₀) ∧
    (Call.open_ rootPath oRdonly).exec.run s₀ = some (r₁, s₁) ∧ (Call.read 2 4096).exec.run s₁ = some (r₂, s₂) ∧
    ∃ found t₀ t₂, (pathWalk dotPath.bytes).run s₀ = some (found, t₀) ∧
      (pathWalk dotPath.bytes).run s₂ = some (found, t₂) := by
  obtain ⟨img, s₀, d, made, mounted, -, formatted, booted⟩ := mkfs_128
  have sound : Sound _ dirModes s₀ := mkfs_sound (by decide) made mounted fun x => (dirModes_isDir x).mpr
  have opening : DataCall s₀ (.open_ rootPath oRdonly) := ⟨by decide, fun h => (h (by decide)).elim⟩
  have reading {s : FsState Disk} : DataCall s (.read 2 4096) := trivial
  obtain ⟨V₀, D₀, rep₀, consistent₀⟩ := sound
  obtain ⟨r₁, s₁, run₁⟩ := exec_isSome rep₀ consistent₀ (opening.safe rep₀ consistent₀)
  obtain ⟨V₁, D₁, rep₁, consistent₁, -⟩ := exec_post rep₀ consistent₀ (opening.safe rep₀ consistent₀) run₁
  obtain ⟨r₂, s₂, run₂⟩ := exec_isSome rep₁ consistent₁ (reading.safe rep₁ consistent₁)
  exact ⟨img, s₀, r₁, s₁, r₂, s₂, made, mounted, run₁, run₂,
    data_calls_keep_names ⟨V₀, D₀, rep₀, consistent₀⟩ (.call (.call .start opening run₁) reading run₂) dotPath⟩

/-- An open with `O_TRUNC` empties the root directory. -/
theorem truncating_open_changes_names : ∃ img s₀ r s t₀ t, mkfs 128 = some img ∧
    swiftfs2Mount.run (FsState.boot img fun _ => true) = some (0, s₀) ∧
    (Call.open_ rootPath oTrunc).exec.run s₀ = some (r, s) ∧ oTrunc &&& oCreat = 0 ∧
    (pathWalk dotPath.bytes).run s₀ = some (some 1, t₀) ∧ (pathWalk dotPath.bytes).run s = some (none, t) := by
  obtain ⟨img, s₀, d, made, mounted, -, formatted, booted⟩ := mkfs_128
  have rep := @rep_volWith s₀ booted.layout false (by simp)
  have consistent := booted.consistent formatted (K := dirModes) (fun x => (dirModes_isDir x).mpr) false
  have safe : Call.Safe dirModes (volWith false s₀) rootDirs (.open_ rootPath oTrunc) :=
    fun _ creat => (creat (by decide)).elim
  obtain ⟨r, s, run⟩ := exec_isSome rep consistent safe
  obtain ⟨V, D, rep', consistent', -, post⟩ := exec_post rep consistent safe run
  have root : (volWith false s₀).inode 1 = rootInode d := booted.inode 1 (by have := formatted.fine.positive; omega)
  have components : pathComponents dotPath.bytes = [dot] := by decide
  have before : resolve (volWith false s₀) rootDirs dotPath.bytes = some 1 := by
    rw [resolve, components, walk, root, if_pos (isDir_rootInode d)]
    rfl
  have empty : D 1 = [] := by
    obtain ⟨value, bytes, entries⟩ := r
    have found : resolve (volWith false s₀) rootDirs rootPath.bytes = some 1 := rfl
    cases post with
    | missing none => cases found.symm.trans none
    | notCreated none => cases found.symm.trans none
    | created none => cases found.symm.trans none
    | existing found' rest =>
        obtain rfl := Option.some.inj (found.symm.trans found')
        cases rest with
        | denied writing => exact (writing (by decide)).elim
        | noFd _ trunc => exact trunc.emptied (by decide)
        | opened _ trunc => exact trunc.emptied (by decide)
  have after : resolve V D dotPath.bytes = none := by
    rw [resolve, components, walk, empty]
    exact ite_self none
  obtain ⟨t₀, first, -⟩ := run_pathWalk rep consistent dotPath
  obtain ⟨t, second, -⟩ := run_pathWalk rep' consistent' dotPath
  rw [before] at first
  rw [after] at second
  exact ⟨img, s₀, r, s, t₀, t, made, mounted, run, by decide, first, second⟩

end SwiftBSD.Proof.Fs
