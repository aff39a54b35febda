import SwiftBSD.Proof.Fs.Create

namespace SwiftBSD.Proof.Fs
open Lib SwiftBSD.Fs

variable {R : Nat → Prop} {K : UInt16 → Prop} {V V' : Vol} {D D' : Nat → List (List Rec)} {i : Nat} {x : Inode}
  {path : List UInt8} {flags : UInt32}

def truncated (x : Inode) : Inode := { bare x with size := 0, blockCount := 0 }

inductive TruncPost (R : Nat → Prop) (V : Vol) (D : Nat → List (List Rec)) (i : Nat) (flags : UInt32) :
    Vol → (Nat → List (List Rec)) → Prop
  | kept (h : flags &&& oTrunc = 0) : TruncPost R V D i flags V D
  | cut {W : Vol} (h : flags &&& oTrunc ≠ 0) (freed : Freed V W) (own : Own R (W.setInode i (truncated (V.inode i)))) :
      TruncPost R V D i flags (W.setInode i (truncated (V.inode i))) (Function.update D i [])

inductive OpenInoPost (R : Nat → Prop) (V : Vol) (D : Nat → List (List Rec)) (i : Nat) (flags : UInt32) :
    Int → Vol → (Nat → List (List Rec)) → Prop
  | denied (writing : flags &&& (oWronly ||| oRdwr) ≠ 0) (readOnly : (V.inode i).mode &&& sIwusr = 0) :
      OpenInoPost R V D i flags (-1) V D
  | noFd (allowed : ¬ (flags &&& (oWronly ||| oRdwr) ≠ 0 ∧ (V.inode i).mode &&& sIwusr = 0)) {V' : Vol}
      {D' : Nat → List (List Rec)} (trunc : TruncPost R V D i flags V' D')
      (full : ∀ fd, 2 ≤ fd → fd < 64 → (V.fds fd).inode ≠ 0) : OpenInoPost R V D i flags (-1) V' D'
  | opened (allowed : ¬ (flags &&& (oWronly ||| oRdwr) ≠ 0 ∧ (V.inode i).mode &&& sIwusr = 0)) {V' : Vol}
      {D' : Nat → List (List Rec)} (trunc : TruncPost R V D i flags V' D') {fd : Nat} (lower : 2 ≤ fd) (upper : fd < 64)
      (free : (V.fds fd).inode = 0) : OpenInoPost R V D i flags fd (V'.setFd fd ⟨i, 0, flags, false⟩) D'

inductive OpenPost (R : Nat → Prop) (V : Vol) (D : Nat → List (List Rec)) (path : List UInt8) (flags : UInt32) :
    Int → Vol → (Nat → List (List Rec)) → Prop
  | missing (none : resolve V D path = none) (noCreat : flags &&& oCreat = 0) : OpenPost R V D path flags (-1) V D
  | notCreated {V' : Vol} {D' : Nat → List (List Rec)} (none : resolve V D path = none) (creat : flags &&& oCreat ≠ 0)
      (create : CreatePost R V D path .none V' D') : OpenPost R V D path flags (-1) V' D'
  | existing {i : Nat} {r : Int} {V' : Vol} {D' : Nat → List (List Rec)} (found : resolve V D path = some i)
      (rest : OpenInoPost R V D i flags r V' D') : OpenPost R V D path flags r V' D'
  | created {i : Nat} {r : Int} {V₁ V' : Vol} {D₁ D' : Nat → List (List Rec)} (none : resolve V D path = none)
      (creat : flags &&& oCreat ≠ 0) (create : CreatePost R V D path (some i) V₁ D₁)
      (rest : OpenInoPost R V₁ D₁ i flags r V' D') : OpenPost R V D path flags r V' D'

theorem runs_openTrunc (c : Consistent R K V D) (hi : i < V.inodes) (h : flags &&& oTrunc ≠ 0) :
    Runs Rep (openTrunc i (V.inode i)) V fun _ V' => TruncPost R V D i flags V' (Function.update D i []) := by
  unfold openTrunc
  have own : Own R (V.setInode i (V.inode i)) := by rw [setInode_self]; exact c.own
  refine .bind (runs_freeBlocks own hi (c.double i hi)) ?_
  rintro _ W ⟨rfl, freed, own'⟩
  have hi' : i < W.inodes := freed.inodes ▸ hi
  refine (runs_inodeWrite hi' _).mono ?_
  rintro _ _ rfl
  exact .cut h freed (own'.setInode_of_slot hi' (slot_pointers rfl rfl _))

theorem TruncPost.consistent (c : Consistent R K V D) (post : TruncPost R V D i flags V' D') :
    Consistent R K V' D' := by
  cases post with
  | kept => exact c
  | @cut W h freed own =>
      have frame : Frame (· = i) V (W.setInode i (truncated (V.inode i))) :=
        (freed.framed.mono fun _ => False.elim).trans (frame_setInode W i _)
      refine c.of_frame frame own (fun j other => Function.update_of_ne other _ _) ?_ ?_ ?_
      · rintro j - rfl
        rw [inode_setInode_self]
        rfl
      · rintro j - rfl -
        rw [inode_setInode_self, Function.update_self]
        exact directory_empty (fun _ => rfl) rfl
      · intro fd
        rw [frame.inodes]
        simp only [Vol.setInode]
        rw [freed.frame]
        exact c.fds fd

theorem TruncPost.fds (post : TruncPost R V D i flags V' D') : V'.fds = V.fds := by
  cases post with
  | kept => rfl
  | cut h freed own =>
      rw [Vol.setInode, freed.frame]

theorem TruncPost.inodes (post : TruncPost R V D i flags V' D') : V'.inodes = V.inodes := by
  cases post with
  | kept => rfl
  | cut h freed own => exact freed.inodes

theorem runs_fdAlloc :
    Runs Rep (fdAlloc : FsM Disk _) V fun r V' => V' = V ∧ r = firstFrom (fun i => (V.fds i).inode == 0) 2 62 := by
  unfold fdAlloc
  refine .bind runs_get ?_
  rintro s V ⟨rfl, rep⟩
  rw [rep.fds]
  exact .pure ⟨rfl, rfl⟩

theorem runs_openFd (i : Nat) (flags : UInt32) :
    Runs Rep (openFd i flags : FsM Disk _) V fun r V' =>
      (r = -1 ∧ V' = V ∧ ∀ fd, 2 ≤ fd → fd < 64 → (V.fds fd).inode ≠ 0) ∨
        ∃ fd : Nat, r = fd ∧ V' = V.setFd fd ⟨i, 0, flags, false⟩ ∧ 2 ≤ fd ∧ fd < 64 ∧ (V.fds fd).inode = 0 := by
  unfold openFd
  refine .bind runs_fdAlloc ?_
  rintro _ V ⟨rfl, rfl⟩
  cases scan : firstFrom (fun i => (V.fds i).inode == 0) 2 62 with
  | none =>
      refine .pure (.inl ⟨rfl, rfl, fun fd lower upper => ?_⟩)
      simpa using firstFrom_none.mp scan fd lower upper
  | some fd =>
      obtain ⟨lower, upper, free, -⟩ := firstFrom_some scan
      refine .bind (P := fun _ V' => V' = V.setFd fd ⟨i, 0, flags, false⟩) ?_ ?_
      · intro s rep
        refine ⟨(), _, _, rfl, ?_, rfl⟩
        rw [Vol.setFd, ← rep.fds]
        exact rep.setFd _
      · rintro _ _ rfl
        exact .pure (.inr ⟨fd, rfl, rfl, lower, upper, by simpa using free⟩)

theorem runs_openIno (c : Consistent R K V D) (hi : i < V.inodes) :
    Runs Rep (do
      let x ← inodeRead i
      if flags &&& (oWronly ||| oRdwr) ≠ 0 ∧ x.mode &&& sIwusr = 0 then return -1
      if flags &&& oTrunc ≠ 0 then openTrunc i x
      openFd i flags) V fun r V' => ∃ D', OpenInoPost R V D i flags r V' D' := by
  refine .bind (runs_inodeRead hi) ?_
  rintro _ V ⟨rfl, rfl⟩
  split
  · next denied => exact .pure ⟨D, .denied denied.1 denied.2⟩
  next allowed =>
  have finish {W : Vol} {D' : Nat → List (List Rec)} (trunc : TruncPost R V D i flags W D') :
      Runs Rep (openFd i flags : FsM Disk _) W fun r V' => ∃ D', OpenInoPost R V D i flags r V' D' := by
    refine (runs_openFd i flags).mono ?_
    rintro r V' (⟨rfl, rfl, full⟩ | ⟨fd, rfl, rfl, lower, upper, free⟩)
    · rw [trunc.fds] at full
      exact ⟨D', .noFd allowed trunc full⟩
    · rw [trunc.fds] at free
      exact ⟨D', .opened allowed trunc lower upper free⟩
  split
  · next h =>
      refine .bind (runs_openTrunc c hi h) ?_
      rintro _ W trunc
      exact finish trunc
  · next h => exact finish (.kept (not_not.mp h))

theorem CreatePost.inodes {r : Option Nat} (post : CreatePost R V D path r V' D') : V'.inodes = V.inodes := by
  cases post with
  | noParent => rfl
  | noInode => rfl
  | noEntry _ _ _ add => exact add.inodes
  | created _ _ _ add => exact add.inodes

theorem CreatePost.lt (post : CreatePost R V D path (some i) V' D') : i < V'.inodes := by
  cases post with
  | created _ free _ add => rw [add.inodes]; exact free.2.1

theorem runs_swiftfs2Open (c : Consistent R K V D) (nul : 0 ∉ path) (flags : UInt32)
    (ok : resolve V D path = none → flags &&& oCreat ≠ 0 → Addable K V D path) :
    Runs Rep (swiftfs2Open path flags) V fun r V' => ∃ D', OpenPost R V D path flags r V' D' := by
  unfold swiftfs2Open
  refine .bind runs_get ?_
  rintro s V ⟨rfl, rep⟩
  rw [rep.layout.mounted]
  simp only [Bool.not_true, Bool.false_eq_true, if_false]
  unfold openResolve
  rw [bind_assoc]
  refine .bind (runs_pathWalk c nul) ?_
  rintro _ V ⟨rfl, rfl⟩
  cases found : resolve V D path with
  | some i =>
      refine (runs_openIno c (c.resolve_lt found)).mono ?_
      rintro r V' ⟨D', post⟩
      exact ⟨D', .existing found post⟩
  | none =>
      dsimp only
      split
      · next noCreat => exact .pure ⟨D, .missing found noCreat⟩
      · next creat =>
          refine .bind (runs_openCreate c nul (ok found creat)) ?_
          rintro r V₁ ⟨D₁, create⟩
          cases r with
          | none => exact .pure ⟨D₁, .notCreated found creat create⟩
          | some i =>
              refine (runs_openIno (create.consistent c) create.lt).mono ?_
              rintro r V' ⟨D', post⟩
              exact ⟨D', .created found creat create post⟩

theorem Consistent.setFd (c : Consistent R K V D) (fd : Nat) {f : Fd} (bound : f.inode < V.inodes) :
    Consistent R K (V.setFd fd f) D := by
  have frame : Frame (fun _ => False) V (V.setFd fd f) := ⟨rfl, rfl, fun _ _ => rfl, fun _ _ _ _ _ => rfl⟩
  refine c.of_frame frame ⟨c.own.owns, c.own.reserved⟩ (fun _ _ => rfl) (fun _ _ => False.elim)
    (fun _ _ => False.elim) fun n => ?_
  simp only [Vol.setFd, Function.update_apply]
  split
  · exact bound
  · exact c.fds n

theorem OpenInoPost.consistent {r : Int} (c : Consistent R K V D) (hi : i < V.inodes)
    (post : OpenInoPost R V D i flags r V' D') : Consistent R K V' D' := by
  cases post with
  | denied => exact c
  | noFd _ trunc => exact trunc.consistent c
  | opened _ trunc =>
      refine (trunc.consistent c).setFd _ ?_
      rw [trunc.inodes]
      exact hi

theorem OpenPost.consistent {r : Int} (c : Consistent R K V D) (post : OpenPost R V D path flags r V' D') :
    Consistent R K V' D' := by
  cases post with
  | missing => exact c
  | notCreated _ _ create => exact create.consistent c
  | existing found rest => exact rest.consistent c (c.resolve_lt found)
  | created _ _ create rest => exact rest.consistent (create.consistent c) create.lt

theorem ReadPost.consistent {fd : Int} {m : Nat} {r : Int × List UInt8} (c : Consistent R K V D)
    (post : ReadPost V fd m r V') : Consistent R K V' D := by
  cases post with
  | refused => exact c
  | ended => exact c
  | bytes descriptor =>
      subst descriptor
      exact c.setFd _ (c.fds _)

theorem WritePost.frame {fd : Int} {buf : List UInt8} {r : Int} (c : Consistent R K V D)
    (post : WritePost R V fd buf r V') : Frame (· = (V.fds fd.toNat).inode) V V' := by
  cases post with
  | refused => exact .refl _ V
  | @wrote f W x' done _ descriptor _ wrote =>
      subst descriptor
      have frame := wrote.ext.frame_setInode c.own (c.fds _) (x'.grow (((V.fds fd.toNat).pos + done) % 2 ^ 32))
      exact ⟨frame.groups, frame.roomy, frame.inode, frame.blocks⟩

theorem WritePost.mode {fd : Int} {buf : List UInt8} {r : Int} (post : WritePost R V fd buf r V') (i : Nat) :
    (V'.inode i).mode = (V.inode i).mode := by
  cases post with
  | refused => rfl
  | wrote _ descriptor _ wrote =>
      simp only [Vol.setFd, Vol.setInode, Function.update_apply]
      split
      · next same =>
          rw [Inode.grow, wrote.inode, same]
      · rw [wrote.ext.inode]

theorem WritePost.consistent {fd : Int} {buf : List UInt8} {r : Int} (c : Consistent R K V D)
    (file : fdOpen V.fds fd = true → (V.fds fd.toNat).flags ≠ oRdonly → ¬ K (V.inode (V.fds fd.toNat).inode).mode)
    (post : WritePost R V fd buf r V') : Consistent R K V' D := by
  have frame := post.frame c
  have mode := post.mode (V.fds fd.toNat).inode
  cases post with
  | refused => exact c
  | @wrote f W x' done opened descriptor writable wrote =>
      subst descriptor
      have hi' : (V.fds fd.toNat).inode < W.inodes := by
        rw [wrote.ext.inodes]
        exact c.fds _
      have own := wrote.own.setInode_of_slot hi' (slot_grow W.data x' (((V.fds fd.toNat).pos + done) % 2 ^ 32))
      refine c.of_frame frame ⟨own.owns, own.reserved⟩ (fun _ _ => rfl) ?_ ?_ ?_
      · rintro j hj rfl
        simp only [Vol.setFd, Vol.setInode, Function.update_self]
        rw [Inode.grow, wrote.inode]
        exact c.double _ hj
      · rintro j hj rfl hK
        rw [mode] at hK
        exact (file opened writable hK).elim
      · intro n
        rw [frame.inodes]
        simp only [Vol.setFd, Vol.setInode, Function.update_apply]
        split
        · exact c.fds _
        · rw [wrote.ext.frame]
          exact c.fds _

theorem runs_swiftfs2Close (c : Consistent R K V D) (fd : Int) :
    Runs Rep (swiftfs2Close fd) V fun r V' =>
      (r = -1 ∧ V' = V ∧ fdOpen V.fds fd = false) ∨ (r = 0 ∧ V' = V.setFd fd.toNat .zero) := by
  unfold swiftfs2Close
  refine .bind runs_get ?_
  rintro s V ⟨rfl, rep⟩
  rw [rep.fds]
  split
  · next closed => exact .pure (.inl ⟨rfl, rfl, by simpa using closed⟩)
  have finish : Runs Rep (do
      modify fun s : FsState Disk => { s with fds := Function.update s.fds fd.toNat .zero }
      return (0 : Int)) V fun r V' =>
        (r = -1 ∧ V' = V ∧ fdOpen V.fds fd = false) ∨ (r = 0 ∧ V' = V.setFd fd.toNat .zero) := by
    refine .bind (P := fun _ V' => V' = V.setFd fd.toNat .zero) ?_ ?_
    · intro s rep
      refine ⟨(), _, _, rfl, ?_, rfl⟩
      rw [Vol.setFd, ← rep.fds]
      exact rep.setFd _
    · rintro _ _ rfl
      exact .pure (.inr ⟨rfl, rfl⟩)
  split
  · refine .bind (runs_inodeRead (c.fds _)) ?_
    rintro _ V ⟨rfl, rfl⟩
    refine .bind (runs_inodeWrite (c.fds _) _) ?_
    rintro _ _ rfl
    rw [setInode_self]
    exact finish
  · exact finish

inductive UnlinkPost (R : Nat → Prop) (V : Vol) (D : Nat → List (List Rec)) (path : List UInt8) :
    Int → Vol → (Nat → List (List Rec)) → Prop
  | noParent (parent : parentOf V D path = none) : UnlinkPost R V D path (-1) V D
  | noTarget {p : Nat} (parent : parentOf V D path = some p) (target : resolve V D path = none) :
      UnlinkPost R V D path (-1) V D
  | noEntry {p t : Nat} (parent : parentOf V D path = some p) (target : resolve V D path = some t)
      (absent : removeDir (splitParent path).2 (D p) = none) : UnlinkPost R V D path (-1) V D
  | removed {p t : Nat} {V₁ W : Vol} {bs : List (List Rec)} (parent : parentOf V D path = some p)
      (target : resolve V D path = some t) (found : removeDir (splitParent path).2 (D p) = some bs)
      (edited : Edited R p V V₁ bs) (data : V₁ = { V with data := V₁.data }) (freed : Freed V₁ W)
      (own : Own R (W.setInode t (bare (V₁.inode t)))) :
      UnlinkPost R V D path 0 (W.freeIno t) (Function.update (Function.update D p bs) t [])

theorem runs_swiftfs2Unlink (c : Consistent R K V D) (nul : 0 ∉ path) (ok : Addable K V D path) :
    Runs Rep (swiftfs2Unlink path) V fun r V' => ∃ D', UnlinkPost R V D path r V' D' := by
  unfold swiftfs2Unlink
  refine .bind (runs_parentWalk c nul) ?_
  rintro _ V ⟨rfl, rfl⟩
  cases parent : parentOf V D path with
  | none => exact .pure ⟨D, .noParent parent⟩
  | some p =>
      refine .bind (runs_pathWalk c nul) ?_
      rintro _ V ⟨rfl, rfl⟩
      cases target : resolve V D path with
      | none => exact .pure ⟨D, .noTarget parent target⟩
      | some t =>
          have hp := c.parentOf_lt parent
          have ht := c.resolve_lt target
          refine .bind (runs_inodeRead ht) ?_
          rintro _ V ⟨rfl, rfl⟩
          refine .bind (runs_inodeRead hp) ?_
          rintro _ V ⟨rfl, rfl⟩
          refine .bind (runs_removeEntry (c.dirs p hp (ok.2 p parent)) c.own hp (nul_splitParent nul).2 ok.1) ?_
          rintro r V₁ ⟨bs, remove⟩
          cases remove with
          | absent none =>
              simp only [Bool.false_eq_true, if_false]
              exact .pure ⟨D, .noEntry parent target none⟩
          | removed found edited data =>
              simp only [if_true]
              have c₁ := c.edit edited
              have ht₁ : t < V₁.inodes := by rw [edited.frame.inodes]; exact ht
              refine .bind (runs_inodeRead ht₁) ?_
              rintro _ V₁ ⟨rfl, rfl⟩
              have own : Own R (V₁.setInode t (V₁.inode t)) := by rw [setInode_self]; exact c₁.own
              refine .bind (runs_freeBlocks own ht₁ (c₁.double t ht₁)) ?_
              rintro _ W ⟨rfl, freed, own'⟩
              refine .bind (runs_inodeFree (by rw [freed.inodes]; exact ht₁) (Nat.pos_iff_ne_zero.mp (resolve_pos target))) ?_
              rintro _ _ rfl
              exact .pure ⟨_, .removed parent target found edited data freed own'⟩

theorem UnlinkPost.consistent {r : Int} (c : Consistent R K V D) (post : UnlinkPost R V D path r V' D') :
    Consistent R K V' D' := by
  cases post with
  | noParent => exact c
  | noTarget => exact c
  | noEntry => exact c
  | @removed p t V₁ W bs parent target found edited data freed own =>
      have c₁ := c.edit edited
      have frame : Frame (· = t) V₁ (W.freeIno t) :=
        (freed.framed.mono fun _ => False.elim).trans (frame_freeIno W t)
      have ht : t < W.inodes := by
        rw [freed.inodes, edited.frame.inodes]
        exact c.resolve_lt target
      have here : (W.freeIno t).inode t = .zero := by simp [Vol.freeIno, Vol.giveIno, Vol.setInode]
      have own' : Own R (W.setInode t .zero) := own.setInode_of_slot ht (slot_pointers rfl rfl _)
      refine c₁.of_frame frame ⟨own'.owns, own'.reserved⟩ (fun j other => Function.update_of_ne other _ _) ?_ ?_ ?_
      · rintro j - rfl
        rw [here]
        rfl
      · rintro j - rfl -
        rw [here, Function.update_self]
        exact directory_empty (fun _ => rfl) rfl
      · intro fd
        rw [frame.inodes]
        have : (W.freeIno t).fds = V₁.fds := by
          rw [Vol.freeIno, Vol.giveIno, Vol.setInode, freed.frame]
        rw [this]
        exact c₁.fds fd

/-- The arguments of the callback for a record. -/
def lsEntry (V : Vol) (r : Rec) : LsEntry := ⟨r.name, (V.inode r.ino).mode, (V.inode r.ino).size⟩

theorem runs_lsBlock {b pos n : Nat} {rs : List Rec} (inside : ¬ Meta V.groups b)
    (chain : Chain (V.data b) pos 4096 rs) (inos : ∀ r ∈ rs, r.ino < V.inodes) (out : List LsEntry)
    (fuel : rs.length < n) :
    Runs Rep (lsBlock (σ := Disk) b n pos out) V fun r V' => r = out ++ (visible rs).map (lsEntry V) ∧ V' = V := by
  induction n generalizing pos rs out with
  | zero => omega
  | succ n ih =>
      unfold lsBlock
      cases chain with
      | nil =>
          rw [if_pos (Nat.le_refl _)]
          exact .pure ⟨by simp [visible], rfl⟩
      | @cons _ _ r rs here fits rest =>
          have stop := rest.le
          have large := fits.1
          rw [List.length_cons] at fuel
          rw [if_neg (by omega), if_neg (by omega)]
          refine .bind (runs_load inside) ?_
          rintro _ V ⟨rfl, rfl⟩
          rw [recordAt_ino here, recordAt_len here]
          by_cases free : r.ino = 0
          · rw [if_pos free]
            exact .pure ⟨by simp [visible, Rec.live, free], rfl⟩
          · have live : r.live = true := by simpa [Rec.live] using free
            have nonzero : Dirent.inode (V.data b) pos ≠ 0 := by rw [recordAt_ino here]; exact free
            have hname : Dirent.name (V.data b) pos = r.name := by rw [← here, recordAt, if_neg nonzero]
            have length := recordAt_nameLen nonzero
            rw [here] at length
            obtain ⟨short, room⟩ := fits.2 free
            rw [if_neg free, if_neg (by omega), if_neg (by omega)]
            refine .bind (runs_inodeRead (inos r (by simp))) ?_
            rintro _ V ⟨rfl, rfl⟩
            refine .bind (runs_load inside) ?_
            rintro _ V ⟨rfl, rfl⟩
            rw [recordAt_len here, hname]
            refine (ih rest (fun q hq => inos q (by simp [hq])) _ (by omega)).mono ?_
            rintro _ V ⟨rfl, rfl⟩
            refine ⟨?_, rfl⟩
            simp [visible, live, lsEntry]

theorem runs_lsBlocks {bs : List (List Rec)} (dir : Directory V x bs) (inside : Inside V x) (n k : Nat)
    (le : k ≤ bs.length) (fuel : bs.length - k < n) (out : List LsEntry) :
    Runs Rep (lsBlocks x n k out) V fun r V' => r = out ++ (seen (bs.drop k)).map (lsEntry V) ∧ V' = V := by
  induction n generalizing k out with
  | zero => omega
  | succ n ih =>
      unfold lsBlocks
      refine .bind (runs_bmapRead k inside.table) ?_
      rintro _ V ⟨rfl, rfl⟩
      dsimp only
      rcases Nat.lt_or_eq_of_le le with less | rfl
      · obtain ⟨present, chain⟩ := dir.block k _ (List.getElem?_eq_getElem less)
        have short := chain.le
        rw [if_neg (ofNat_fileBlock_eq_zero.not.mpr present), toNat_ofNat_fileBlock]
        refine .bind (runs_cacheGet _) ?_
        rintro _ V ⟨rfl, rfl⟩
        refine .bind (runs_lsBlock (inside.block present) chain (dir.inode _ (List.getElem_mem _)) out (by omega)) ?_
        rintro _ V ⟨rfl, rfl⟩
        refine (ih (k + 1) less (by omega) _).mono ?_
        rintro _ V ⟨rfl, rfl⟩
        refine ⟨?_, rfl⟩
        rw [List.drop_eq_getElem_cons less]
        simp only [seen, List.flatMap_cons, List.map_append, List.append_assoc]
      · rw [if_pos (ofNat_fileBlock_eq_zero.mpr (dir.last _ (Nat.le_refl _)))]
        exact .pure ⟨by simp [seen], rfl⟩

def listing (V : Vol) (D : Nat → List (List Rec)) (path : List UInt8) : Int × List LsEntry :=
  match resolve V D path with
  | none => (-1, [])
  | some i => if (V.inode i).isDir then (0, (seen (D i)).map (lsEntry V)) else (-1, [])

theorem runs_swiftfs2Ls (c : Consistent R K V D) (nul : 0 ∉ path) :
    Runs Rep (swiftfs2Ls path) V fun r V' => r = listing V D path ∧ V' = V := by
  unfold swiftfs2Ls listing
  refine .bind runs_get ?_
  rintro s V ⟨rfl, rep⟩
  rw [rep.layout.mounted]
  simp only [Bool.not_true, Bool.false_eq_true, if_false]
  refine .bind (runs_pathWalk c nul) ?_
  rintro _ V ⟨rfl, rfl⟩
  cases found : resolve V D path with
  | none => exact .pure ⟨rfl, rfl⟩
  | some i =>
      have hi := c.resolve_lt found
      refine .bind (runs_inodeRead hi) ?_
      rintro _ V ⟨rfl, rfl⟩
      by_cases isDir : (V.inode i).isDir = true
      · simp only [isDir, Bool.not_true, Bool.false_eq_true, if_false, if_true]
        have dir := c.dirs i hi (c.isDir _ isDir)
        have count := dir.count
        refine .bind (runs_lsBlocks dir (c.own.inside hi) 1037 0 (Nat.zero_le _) (by omega) []) ?_
        rintro _ V ⟨rfl, rfl⟩
        exact .pure ⟨by simp, rfl⟩
      · simp only [isDir, Bool.not_false, Bool.false_eq_true, if_false, if_true]
        exact .pure ⟨rfl, rfl⟩

theorem Rep.writeMeta {s : FsState Disk} (rep : Rep s V) {b : Nat} (v : Block) (isMeta : Meta V.groups b)
    (table : ∀ i < V.inodes, inodeBlock V.groups i ≠ b)
    (bitmap : ∀ g < V.groups, bitmapBlock V.groups g = b → s.bitmaps g ≠ none) :
    Rep { s with dev := s.dev.set b v } V := by
  refine rep.withDev (fun g hg => ?_) (fun i hi => ?_) (fun c hc => ?_)
  · by_cases here : bitmapBlock V.groups g = b
    · obtain ⟨bm, present⟩ := Option.ne_none_iff_exists'.mp (bitmap g hg here)
      simp [bitmapOf, present]
    · simp only [bitmapOf, rep.groups, Disk.set, Function.update_of_ne here]
  · rw [← rep.inode i hi]
    simp only [inodeAt, rep.groups, Disk.set, Function.update_of_ne (table i hi)]
  · rw [← rep.data c hc]
    refine Function.update_of_ne ?_ _ _
    rintro rfl
    exact hc isMeta

theorem inodeBlock_gt {n : Nat} (bound : n ≤ 131072) (i : Nat) : descBlocks n < inodeBlock n i := by
  have := descBlocks_le bound
  unfold inodeBlock bitmapBlock
  split <;> omega

theorem bitmapBlock_gt {n : Nat} (bound : n ≤ 131072) (g : Nat) : descBlocks n < bitmapBlock n g := by
  have := descBlocks_le bound
  unfold bitmapBlock
  split <;> omega

theorem runs_writeBlock {b : Nat} (v : Block) (bound : V.groups ≤ 131072) (h : b ≤ descBlocks V.groups) :
    Runs Rep (writeBlock b v : FsM Disk Unit) V fun _ V' => V' = V := by
  intro s rep
  refine ⟨(), _, V, rfl, rep.writeMeta v (.inl (by omega)) (fun i _ same => ?_) (fun g _ same => ?_), rfl⟩
  · have := inodeBlock_gt bound i
    omega
  · have := bitmapBlock_gt bound g
    omega

theorem runs_writeDescriptors (bound : V.groups ≤ 131072) {n : Nat} (h : n ≤ descBlocks V.groups) :
    Runs Rep (writeDescriptors n : FsM Disk Unit) V fun _ V' => V' = V := by
  induction n with
  | zero => exact .pure rfl
  | succ n ih =>
      unfold writeDescriptors
      refine .bind (ih (by omega)) ?_
      rintro _ V rfl
      refine .bind runs_get ?_
      rintro s V ⟨rfl, -⟩
      exact runs_writeBlock _ bound (by omega)

theorem runs_bitmapSync (bound : V.groups ≤ 131072) {g : Nat} (hg : g < V.groups) :
    Runs Rep (bitmapSync g : FsM Disk Unit) V fun _ V' => V' = V := by
  intro s rep
  cases present : s.bitmaps g with
  | none => exact ⟨(), s, V, by simp [bitmapSync, present], rep, rfl⟩
  | some bm =>
      have hg' : g < s.nrGroups := rep.groups ▸ hg
      have block := rep.layout.bitmap g hg'
      rw [rep.groups] at block
      refine ⟨(), { s with dev := s.dev.set (bitmapBlock V.groups g) bm }, V, ?_,
        rep.writeMeta bm (meta_bitmapBlock bound hg) (fun i _ => inodeBlock_ne_bitmapBlock bound) ?_, rfl⟩
      · simp [bitmapSync, present, writeBlock, BlockStore.writeBlock, block]
      · intro h hh same
        rw [bitmapBlock_inj bound same, present]
        exact Option.some_ne_none bm

theorem runs_syncBitmaps (bound : V.groups ≤ 131072) {n : Nat} (h : n ≤ V.groups) :
    Runs Rep (syncBitmaps n : FsM Disk Unit) V fun _ V' => V' = V := by
  induction n with
  | zero => exact .pure rfl
  | succ n ih =>
      unfold syncBitmaps
      refine .bind (ih (by omega)) ?_
      rintro _ V rfl
      exact runs_bitmapSync bound h

theorem runs_swiftfs2Sync (bound : V.groups ≤ 131072) :
    Runs Rep (swiftfs2Sync : FsM Disk Int) V fun r V' => r = 0 ∧ V' = { V with fds := cleanFds V.fds } := by
  unfold swiftfs2Sync
  refine .bind runs_get ?_
  rintro s V ⟨rfl, rep⟩
  rw [rep.layout.mounted]
  simp only [Bool.not_true, Bool.false_eq_true, if_false]
  refine .bind (P := fun _ V' => V' = { V with fds := cleanFds V.fds }) ?_ ?_
  · intro s rep
    refine ⟨(), _, _, rfl, ?_, rfl⟩
    rw [← rep.fds]
    exact rep.setFd _
  rintro _ _ rfl
  refine .bind runs_get ?_
  rintro s W ⟨rfl, rep⟩
  refine .bind (runs_writeBlock _ bound (Nat.zero_le _)) ?_
  rintro _ _ rfl
  refine .bind (runs_writeDescriptors (V := { V with fds := cleanFds V.fds }) bound ?_) ?_
  · rw [rep.layout.desc, rep.groups]
  rintro _ _ rfl
  refine .bind (runs_syncBitmaps (V := { V with fds := cleanFds V.fds }) bound ?_) ?_
  · rw [rep.groups]
  rintro _ _ rfl
  exact .pure ⟨rfl, rfl⟩

theorem Consistent.cleanFds (c : Consistent R K V D) : Consistent R K { V with fds := SwiftBSD.Fs.cleanFds V.fds } D := by
  have frame : Frame (fun _ => False) V { V with fds := SwiftBSD.Fs.cleanFds V.fds } :=
    ⟨rfl, rfl, fun _ _ => rfl, fun _ _ _ _ _ => rfl⟩
  refine c.of_frame frame ⟨c.own.owns, c.own.reserved⟩ (fun _ _ => rfl) (fun _ _ => False.elim)
    (fun _ _ => False.elim) fun n => ?_
  simp only [SwiftBSD.Fs.cleanFds]
  split <;> exact c.fds n

end SwiftBSD.Proof.Fs
