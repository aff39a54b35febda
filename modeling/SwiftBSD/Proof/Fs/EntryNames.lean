import SwiftBSD.Proof.Fs.FirstBlock

namespace SwiftBSD.Proof.Fs
open Lib SwiftBSD.Fs

variable {R : Nat → Prop} {K : UInt16 → Prop} {V V' : Vol} {D D' : Nat → List (List Rec)} {bs bs' : List (List Rec)} {i p child : Nat}
  {name path : List UInt8} {flags : UInt32} {s : FsState Disk}

def recNames (rs : List Rec) : List (List UInt8) := (rs.filter Rec.live).map Rec.name

/-- The names of the live records of a directory, with those that no lookup reaches. -/
def liveNames (bs : List (List Rec)) : List (List UInt8) := bs.flatMap recNames

theorem recNames_cons (r : Rec) (rs : List Rec) : recNames (r :: rs) = (if r.live then [r.name] else []) ++ recNames rs := by
  unfold recNames
  rw [List.filter_cons]
  split
  · rfl
  · rfl

theorem recNames_append (rs rs' : List Rec) : recNames (rs ++ rs') = recNames rs ++ recNames rs' := by simp [recNames]

theorem recNames_use {reclen : Nat} (live : child ≠ 0) (r : Rec) : recNames (r.use reclen child name) = [name] := by
  have : (child != 0) = true := bne_iff_ne.mpr live
  unfold Rec.use
  split
  · simp [recNames, Rec.live, Rec.free, this]
  · simp [recNames, Rec.live, this]

theorem recNames_newDir (hi : i ≠ 0) (hp : p ≠ 0) : recNames (newDir i p) = [dot, dotdot] := by
  have live : (i != 0) = true := bne_iff_ne.mpr hi
  have live' : (p != 0) = true := bne_iff_ne.mpr hp
  simp [recNames, newDir, List.filter, Rec.live, Rec.free, live, live']

theorem recNames_insert {reclen : Nat} {rs rs' : List Rec} (live : child ≠ 0) (found : insertRec reclen child name rs = some rs') :
    (recNames rs').Perm (name :: recNames rs) := by
  induction rs generalizing rs' with
  | nil => cases found
  | cons r rs ih =>
      rw [insertRec] at found
      split at found
      · next takes =>
          obtain rfl := Option.some.inj found
          have free : r.live = false := by
            have : r.ino = 0 := by
              simp only [Rec.takes, Bool.and_eq_true, beq_iff_eq] at takes
              exact takes.1
            simp [Rec.live, this]
          rw [recNames_append, recNames_use live, recNames_cons, free]
          exact .refl _
      · obtain ⟨rest, inserted, rfl⟩ := Option.map_eq_some_iff.mp found
        rw [recNames_cons, recNames_cons r rs]
        exact ((ih inserted).append_left _).trans List.perm_middle

theorem liveNames_insert {reclen : Nat} (live : child ≠ 0) (found : insertDir reclen child name bs = some bs') :
    (liveNames bs').Perm (name :: liveNames bs) := by
  unfold insertDir at found
  induction bs generalizing bs' with
  | nil => cases found
  | cons rs bs ih =>
      rw [updateFirst] at found
      split at found
      · next rs' inserted =>
          obtain rfl := Option.some.inj found
          exact (recNames_insert live inserted).append_right _
      · obtain ⟨rest, inserted, rfl⟩ := Option.map_eq_some_iff.mp found
        exact ((ih inserted).append_left _).trans List.perm_middle

theorem recNames_remove {rs rs' : List Rec} (found : removeRec name rs = some rs') : (recNames rs').Sublist (recNames rs) := by
  induction rs generalizing rs' with
  | nil => cases found
  | cons r rs ih =>
      rw [removeRec] at found
      split at found
      · cases found
      · split at found
        · obtain rfl := Option.some.inj found
          rw [recNames_cons, recNames_cons r rs]
          exact List.sublist_append_right _ _
        · obtain ⟨rest, removed, rfl⟩ := Option.map_eq_some_iff.mp found
          rw [recNames_cons, recNames_cons r rs]
          exact (ih removed).append_left _

theorem liveNames_remove (found : removeDir name bs = some bs') : (liveNames bs').Sublist (liveNames bs) := by
  unfold removeDir at found
  induction bs generalizing bs' with
  | nil => cases found
  | cons rs bs ih =>
      rw [updateFirst] at found
      split at found
      · next rs' removed =>
          obtain rfl := Option.some.inj found
          exact (recNames_remove removed).append_right _
      · obtain ⟨rest, removed, rfl⟩ := Option.map_eq_some_iff.mp found
        exact (ih removed).append_left _

theorem AddPost.liveNames {r : Int} (post : AddPost R V p bs name child r V' bs') (live : child ≠ 0) :
    bs' = bs ∨ (Fs.liveNames bs').Perm (name :: Fs.liveNames bs) := by
  cases post with
  | fit found => exact .inr (liveNames_insert live found)
  | full => exact .inl rfl
  | leak => exact .inl rfl
  | lost => exact .inl rfl
  | grow =>
      right
      have new : recNames (newBlock child name) = [name] := by
        have : (child != 0) = true := bne_iff_ne.mpr live
        simp [recNames, newBlock, Rec.live, Rec.free, this]
      unfold Fs.liveNames
      rw [List.flatMap_append, List.flatMap_singleton, new]
      exact List.perm_append_singleton _ _

/-- No directory has two live entries of one name. -/
def Distinct (D : Nat → List (List Rec)) : Prop := ∀ i, (liveNames (D i)).Nodup

theorem Distinct.update (distinct : Distinct D) (nodup : (liveNames bs).Nodup) : Distinct (Function.update D i bs) := by
  intro j
  by_cases here : j = i
  · rw [here, Function.update_self]
    exact nodup
  · rw [Function.update_of_ne here]
    exact distinct j

theorem Distinct.clear (distinct : Distinct D) (i : Nat) : Distinct (Function.update D i []) := distinct.update List.nodup_nil

theorem Distinct.add {r : Int} (distinct : Distinct D) (post : AddPost R V p (D p) name child r V' bs) (live : child ≠ 0)
    (fresh : name ∉ liveNames (D p)) : Distinct (Function.update D p bs) := by
  refine distinct.update ?_
  rcases post.liveNames live with rfl | added
  · exact distinct p
  · exact added.nodup_iff.mpr (List.nodup_cons.mpr ⟨fresh, distinct p⟩)

/-- The name is new to the directory at the parent path. -/
def FreshIn (V : Vol) (D : Nat → List (List Rec)) (path : List UInt8) : Prop :=
  ∀ p, parentOf V D path = some p → (splitParent path).2 ∉ liveNames (D p)

/-- A free inode that is the parent becomes the new directory itself. -/
def FreshBelow (V : Vol) (D : Nat → List (List Rec)) (path : List UInt8) : Prop :=
  FreshIn V D path ∧ ∀ p, parentOf V D path = some p → (V.inode p).mode = 0 → (splitParent path).2 ≠ dot ∧ (splitParent path).2 ≠ dotdot

theorem CreatePost.distinct {r : Option Nat} (post : CreatePost R V D path r V' D') (distinct : Distinct D)
    (fresh : FreshIn V D path) : Distinct D' := by
  cases post with
  | noParent => exact distinct
  | noInode => exact distinct
  | noEntry => exact distinct.clear _
  | @created p i _ bs parent free first add =>
      refine (distinct.clear i).add add (Nat.pos_iff_ne_zero.mp free.1) fun member => ?_
      by_cases same : p = i
      · rw [same, Function.update_self] at member
        cases member
      · rw [Function.update_of_ne same] at member
        exact fresh p parent member

theorem MkdirPost.distinct {mode : UInt16} {r : Int} (post : MkdirPost R V D path mode r V' D') (distinct : Distinct D)
    (fresh : FreshBelow V D path) : Distinct D' := by
  cases post with
  | noParent => exact distinct
  | noInode => exact distinct
  | noDot => exact distinct.clear _
  | noEntry => exact distinct.clear _
  | @made p i _ _ bs parent free first _ _ add =>
      have nonzero : i ≠ 0 := Nat.pos_iff_ne_zero.mp free.1
      have names : liveNames [newDir i p] = [dot, dotdot] := by
        rw [liveNames, List.flatMap_singleton, recNames_newDir nonzero (Nat.pos_iff_ne_zero.mp (parentOf_pos parent))]
      refine (distinct.update (by rw [names]; decide)).add add nonzero fun member => ?_
      by_cases same : p = i
      · obtain ⟨notDot, notDotdot⟩ := fresh.2 p parent (by rw [same]; exact free.2.2.2)
        rw [same, Function.update_self, show liveNames [newDir i i] = [dot, dotdot] by rw [← names, same]] at member
        simp [notDot, notDotdot] at member
      · rw [Function.update_of_ne same] at member
        exact fresh.1 p parent member

theorem UnlinkPost.distinct {r : Int} (post : UnlinkPost R V D path r V' D') (distinct : Distinct D) : Distinct D' := by
  cases post with
  | noParent => exact distinct
  | noTarget => exact distinct
  | noEntry => exact distinct
  | @removed p _ _ _ _ _ _ found =>
      exact (distinct.update ((distinct p).sublist (liveNames_remove found))).clear _

theorem OpenInoPost.distinct {r : Int} (post : OpenInoPost R V D i flags r V' D') (distinct : Distinct D) : Distinct D' := by
  have cleared {W : Vol} {E : Nat → List (List Rec)} (trunc : TruncPost R V D i flags W E) : Distinct E := by
    cases trunc with
    | kept => exact distinct
    | cut => exact distinct.clear i
  cases post with
  | denied => exact distinct
  | noFd _ trunc => exact cleared trunc
  | opened _ trunc => exact cleared trunc

theorem OpenPost.distinct {r : Int} (post : OpenPost R V D path flags r V' D') (distinct : Distinct D)
    (fresh : resolve V D path = none → flags &&& oCreat ≠ 0 → FreshIn V D path) : Distinct D' := by
  cases post with
  | missing => exact distinct
  | notCreated none creat create => exact create.distinct distinct (fresh none creat)
  | existing _ rest => exact rest.distinct distinct
  | created none creat create rest => exact rest.distinct (create.distinct distinct (fresh none creat))

def Call.Fresh (V : Vol) (D : Nat → List (List Rec)) : Call → Prop
  | .open_ path flags => resolve V D path.bytes = none → flags &&& oCreat ≠ 0 → FreshIn V D path.bytes
  | .mkdir path _ => FreshBelow V D path.bytes
  | _ => True

theorem Call.Post.distinct {c : Call} {r : Result} (post : Call.Post R V D r V' D' c) (distinct : Distinct D)
    (fresh : Call.Fresh V D c) : Distinct D' := by
  cases c with
  | open_ path flags => exact post.2.distinct distinct fresh
  | mkdir path mode => exact post.2.distinct distinct fresh
  | unlink path => exact post.2.distinct distinct
  | read | write | ls | sync =>
      obtain ⟨-, -, rfl⟩ := post
      exact distinct
  | close =>
      obtain ⟨rfl, -⟩ := post
      exact distinct

theorem Rep.directory (rep : Rep s V) (c : Consistent R K V D) (hi : i < V.inodes) (hK : K (V.inode i).mode) :
    Directory (volOf s) (inodeAt s i) (D i) := by
  have inodes : (volOf s).inodes = V.inodes := congrArg (4096 * ·) rep.groups
  rw [rep.inode i hi]
  refine (c.dirs i hi hK).congr inodes (fun l => rep.fileBlock c.own hi l) rfl fun l present => ?_
  exact rep.data _ ((c.own.inside hi).block present)

/-- The last component fits its buffer, and no live entry of the directory at the parent path has its name. -/
def NewName (s : FsState Disk) (path : CString) : Prop :=
  (splitParent path.bytes).2.length ≤ 254 ∧
    ∀ p t bs, (parentWalk path.bytes).run s = some (some p, t) → Directory (volOf s) (inodeAt s p) bs →
      (splitParent path.bytes).2 ∉ liveNames bs

/-- Every call that creates gives a new name; `swiftfs2_mkdir` may take the inode of its own parent path if that is free. -/
def NewNames (s : FsState Disk) : Call → Prop
  | .open_ path flags => flags &&& oCreat ≠ 0 → ∀ t, (pathWalk path.bytes).run s = some (none, t) → NewName s path
  | .mkdir path _ => NewName s path ∧ ∀ p t, (parentWalk path.bytes).run s = some (some p, t) → (inodeAt s p).mode = 0 →
      (splitParent path.bytes).2 ≠ dot ∧ (splitParent path.bytes).2 ≠ dotdot
  | .unlink path => (splitParent path.bytes).2.length ≤ 254
  | .write _ _ => False
  | _ => True

/-- Every inode may be used as a directory: nothing is written to files. -/
def anyMode (_ : UInt16) : Prop := True

theorem NewName.freshIn {path : CString} (rep : Rep s V) (c : Consistent R anyMode V D) (new : NewName s path) : FreshIn V D path.bytes := by
  intro p parent
  obtain ⟨t, run, -⟩ := run_parentWalk rep c path
  rw [parent] at run
  exact new.2 p t (D p) run (rep.directory c (c.parentOf_lt parent) trivial)

theorem NewName.addable {path : CString} (new : NewName s path) : Addable anyMode V D path.bytes := ⟨new.1, fun _ _ => trivial⟩

theorem NewNames.safe {c : Call} (rep : Rep s V) (consistent : Consistent R anyMode V D) (new : NewNames s c) : Call.Safe anyMode V D c := by
  cases c with
  | open_ path flags =>
      intro missing creat
      obtain ⟨t, run, -⟩ := run_pathWalk rep consistent path
      rw [missing] at run
      exact (new creat t run).addable
  | mkdir path mode => exact new.1.addable
  | unlink path => exact ⟨new, fun _ _ => trivial⟩
  | write => exact new.elim
  | read | close | ls | sync => trivial

theorem NewNames.fresh {c : Call} (rep : Rep s V) (consistent : Consistent R anyMode V D) (new : NewNames s c) : Call.Fresh V D c := by
  cases c with
  | open_ path flags =>
      intro missing creat
      obtain ⟨t, run, -⟩ := run_pathWalk rep consistent path
      rw [missing] at run
      exact (new creat t run).freshIn rep consistent
  | mkdir path mode =>
      refine ⟨new.1.freshIn rep consistent, fun p parent unused => ?_⟩
      obtain ⟨t, run, -⟩ := run_parentWalk rep consistent path
      rw [parent] at run
      exact new.2 p t run (by rw [rep.inode p (consistent.parentOf_lt parent)]; exact unused)
  | read | write | close | unlink | ls | sync => trivial

theorem MkdirPost.bin {mode : UInt16} {r : Int} {rs : List Rec} (added : Nat → List Rec)
    (post : MkdirPost R V D binPath.bytes mode r V' D')
    (roomy : V.roomy = true) (avail : 0 < V.avail) (free : ∃ j, V.FreeIno j) (used : (V.inode 1).mode ≠ 0) (root : D 1 = [rs])
    (room : ∀ i ≠ 0, insertDir (entryLen binName) i binName [rs] = some [added i]) :
    ∃ i, V.FreeIno i ∧ D' 1 = [added i] ∧ V'.roomy = true ∧ V.avail = V'.avail + 1 ∧ V'.fds = V.fds ∧
      V'.inodes = V.inodes ∧ V'.groupFreeInodes = (V.takeIno i).groupFreeInodes ∧ ∀ j ≠ i, V'.inode j = V.inode j := by
  have walked : parentOf V D binPath.bytes = some 1 := rfl
  have other {i : Nat} (free : V.FreeIno i) : i ≠ 1 := by
    rintro rfl
    exact used free.2.2.2
  obtain ⟨j, free⟩ := free
  cases post with
  | noParent parent => cases walked.symm.trans parent
  | noInode _ full => exact absurd free (full roomy j)
  | noDot _ _ _ out =>
      have none : V.avail = 0 := Vol.avail_eq_zero.mpr (out roomy)
      omega
  | @noEntry p i W _ bs parent free first made took add =>
      obtain rfl : 1 = p := Option.some.inj (walked.symm.trans parent)
      rw [Function.update_of_ne (other free).symm, root] at add
      have inserted := room i (Nat.pos_iff_ne_zero.mp free.1)
      cases add with
      | full none => cases inserted.symm.trans none
      | leak none => cases inserted.symm.trans none
  | @made p i W _ bs parent free first made took add =>
      obtain rfl : 1 = p := Option.some.inj (walked.symm.trans parent)
      rw [Function.update_of_ne (other free).symm, root] at add
      have inserted := room i (Nat.pos_iff_ne_zero.mp free.1)
      cases add with
      | grow none => cases inserted.symm.trans none
      | lost none => cases inserted.symm.trans none
      | fit found edited data =>
          obtain rfl : [added i] = bs := Option.some.inj (inserted.symm.trans found)
          have frame := (frame_allocIno V (dirMode mode) i).trans made.frame
          refine ⟨i, free, Function.update_self _ _ _, edited.frame.roomy.trans (frame.roomy.trans roomy), ?_, ?_,
            edited.frame.inodes.trans frame.inodes, ?_, fun j notChild => ?_⟩
          · rw [took, data]
            exact congrArg (· + 1) (Vol.avail_congr rfl rfl rfl)
          · rw [edited.fds, made.fds]
            rfl
          · rw [edited.groupFreeInodes, made.groupFreeInodes]
            rfl
          · rw [data]
            exact frame.inode j notChild

theorem FreshVol.ne_one (fresh : FreshVol V) (free : V.FreeIno i) : i ≠ 1 := by
  rintro rfl
  exact fresh.root_mode free.2.2.2

/-- A fresh volume from which one inode was taken has another. -/
theorem FreshVol.spare (fresh : FreshVol V) (free : V.FreeIno i) (inodes : V'.inodes = V.inodes)
    (counts : V'.groupFreeInodes = (V.takeIno i).groupFreeInodes) (kept : ∀ j ≠ i, V'.inode j = V.inode j) : ∃ k, V'.FreeIno k := by
  obtain ⟨k, lower, upper, other⟩ : ∃ k, 1 < k ∧ k < 4096 ∧ k ≠ i := by
    by_cases two : i = 2
    · exact ⟨3, by omega, by omega, by omega⟩
    · exact ⟨2, by omega, by omega, fun same => two same.symm⟩
  refine ⟨k, by omega, by rw [inodes, fresh.inodes]; exact upper, ?_, ?_⟩
  · have here : i / 4096 = 0 := by
      have := free.2.1
      rw [fresh.inodes] at this
      omega
    have there : k / 4096 = 0 := by omega
    rw [counts, there, Vol.takeIno, here]
    dsimp only
    rw [Function.update_self, fresh.count]
    decide
  · rw [kept k other, fresh.free k lower upper]
    rfl

/-- The block of the root directory after one `/bin`, and after two. -/
def oneBin (i : Nat) : List Rec := [⟨12, 1, dot⟩, ⟨12, 1, dotdot⟩, ⟨12, i, binName⟩, .free 4060]

end SwiftBSD.Proof.Fs
