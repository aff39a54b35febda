import SwiftBSD.Fs.Call
import SwiftBSD.Proof.Fs.Remount

namespace SwiftBSD.Proof.Fs
open Lib SwiftBSD.Fs

variable {R : Nat → Prop} {K : UInt16 → Prop} {V V' : Vol} {D D' : Nat → List (List Rec)} {c : Call} {r : Result}

/-- New names are short enough and go to inodes that look like directories; writes go to inodes that need
not. -/
def Call.Safe (K : UInt16 → Prop) (V : Vol) (D : Nat → List (List Rec)) : Call → Prop
  | .open_ path flags => resolve V D path.bytes = none → flags &&& oCreat ≠ 0 → Addable K V D path.bytes
  | .write fd _ => fdOpen V.fds fd = true → (V.fds fd.toNat).flags ≠ oRdonly →
      ¬ K (V.inode (V.fds fd.toNat).inode).mode
  | .mkdir path _ => Addable K V D path.bytes
  | .unlink path => Addable K V D path.bytes
  | _ => True

def Call.Post (R : Nat → Prop) (V : Vol) (D : Nat → List (List Rec)) (r : Result) (V' : Vol)
    (D' : Nat → List (List Rec)) : Call → Prop
  | .open_ path flags => r = .ofValue r.value ∧ OpenPost R V D path.bytes flags r.value V' D'
  | .read fd size => r.entries = [] ∧ ReadPost V fd size.toNat (r.value, r.bytes) V' ∧ D' = D
  | .write fd buf => r = .ofValue r.value ∧ WritePost R V fd buf r.value V' ∧ D' = D
  | .close fd => D' = D ∧ ((r = .ofValue (-1) ∧ V' = V ∧ fdOpen V.fds fd = false) ∨
      (r = .ofValue 0 ∧ V' = V.setFd fd.toNat .zero))
  | .mkdir path mode => r = .ofValue r.value ∧ MkdirPost R V D path.bytes mode r.value V' D'
  | .unlink path => r = .ofValue r.value ∧ UnlinkPost R V D path.bytes r.value V' D'
  | .ls path => r = ⟨(listing V D path.bytes).1, [], (listing V D path.bytes).2⟩ ∧ V' = V ∧ D' = D
  | .sync => r = .ofValue 0 ∧ V' = { V with fds := cleanFds V.fds } ∧ D' = D

theorem Runs.map {σ W α β : Type} {Rep : σ → W → Prop} {x : Prog σ α} {v : W} {Q : β → W → Prop} (f : α → β)
    (h : Runs Rep x v fun a => Q (f a)) : Runs Rep (do return f (← x)) v Q :=
  .bind h fun _ _ post => .pure post

theorem runs_exec (consistent : Consistent R K V D) (safe : Call.Safe K V D c) :
    Runs Rep c.exec V fun r V' => ∃ D', Call.Post R V D r V' D' c := by
  cases c with
  | open_ path flags =>
      refine Runs.map _ ((runs_swiftfs2Open consistent path.nul flags safe).mono ?_)
      rintro r V' ⟨D', post⟩
      exact ⟨D', rfl, post⟩
  | read fd size =>
      refine .bind (runs_swiftfs2Read consistent.own size.toNat (consistent.fds _)) ?_
      intro r V' post
      exact .pure ⟨D, rfl, post, rfl⟩
  | write fd buf =>
      refine Runs.map _ ((runs_swiftfs2Write consistent.own buf (consistent.fds _)).mono ?_)
      intro r V' post
      exact ⟨D, rfl, post, rfl⟩
  | close fd =>
      refine Runs.map _ ((runs_swiftfs2Close consistent fd).mono ?_)
      rintro r V' (⟨rfl, rfl, closed⟩ | ⟨rfl, rfl⟩)
      · exact ⟨D, rfl, .inl ⟨rfl, rfl, closed⟩⟩
      · exact ⟨D, rfl, .inr ⟨rfl, rfl⟩⟩
  | mkdir path mode =>
      refine Runs.map _ ((runs_swiftfs2Mkdir consistent path.nul mode safe).mono ?_)
      rintro r V' ⟨D', post⟩
      exact ⟨D', rfl, post⟩
  | unlink path =>
      refine Runs.map _ ((runs_swiftfs2Unlink consistent path.nul safe).mono ?_)
      rintro r V' ⟨D', post⟩
      exact ⟨D', rfl, post⟩
  | ls path =>
      refine .bind (runs_swiftfs2Ls consistent path.nul) ?_
      rintro _ V ⟨rfl, rfl⟩
      exact .pure ⟨D, rfl, rfl, rfl⟩
  | sync =>
      refine Runs.map _ ((runs_swiftfs2Sync consistent.bound).mono ?_)
      rintro _ _ ⟨rfl, rfl⟩
      exact ⟨D, rfl, rfl, rfl⟩

theorem Call.Post.consistent (consistent : Consistent R K V D) (safe : Call.Safe K V D c)
    (post : Call.Post R V D r V' D' c) : Consistent R K V' D' := by
  cases c with
  | open_ path flags => exact post.2.consistent consistent
  | read fd size =>
      obtain ⟨-, read, rfl⟩ := post
      exact read.consistent consistent
  | write fd buf =>
      obtain ⟨-, write, rfl⟩ := post
      exact write.consistent consistent safe
  | close fd =>
      obtain ⟨rfl, ⟨-, rfl, -⟩ | ⟨-, rfl⟩⟩ := post
      · exact consistent
      · exact consistent.setFd _ (Nat.lt_of_le_of_lt (Nat.zero_le _) consistent.root)
  | mkdir path mode => exact post.2.consistent consistent
  | unlink path => exact post.2.consistent consistent
  | ls path =>
      obtain ⟨-, rfl, rfl⟩ := post
      exact consistent
  | sync =>
      obtain ⟨-, rfl, rfl⟩ := post
      exact consistent.cleanFds

theorem exec_post {s s' : FsState Disk} (rep : Rep s V) (consistent : Consistent R K V D) (safe : Call.Safe K V D c)
    (run : c.exec.run s = some (r, s')) :
    ∃ V' D', Rep s' V' ∧ Consistent R K V' D' ∧ Call.Post R V D r V' D' c := by
  obtain ⟨r', t, V', run', rep', D', post⟩ := runs_exec consistent safe s rep
  obtain ⟨rfl, rfl⟩ := Prod.mk.inj (Option.some.inj (run.symm.trans run'))
  exact ⟨V', D', rep', post.consistent consistent safe, post⟩

theorem exec_isSome {s : FsState Disk} (rep : Rep s V) (consistent : Consistent R K V D) (safe : Call.Safe K V D c) :
    ∃ r s', c.exec.run s = some (r, s') := by
  obtain ⟨r, s', -, run, -⟩ := runs_exec consistent safe s rep
  exact ⟨r, s', run⟩

theorem Rep.slots {s : FsState Disk} (rep : Rep s V) (own : Own R V) : (volOf s).slots = V.slots := by
  have inodes : (volOf s).inodes = V.inodes := by rw [Vol.inodes, Vol.inodes, ← rep.groups]; rfl
  funext p
  unfold Vol.slots
  rw [inodes]
  split
  · next inside =>
      have inode : (volOf s).inode p.1 = V.inode p.1 := rep.inode p.1 inside
      rw [inode]
      refine congrFun (slot_congr fun table => ?_) p.2
      have stored : V.slots (p.1, 1036) = (V.inode p.1).indirect.toNat := by rw [slots_of_lt inside, slot_table]
      have nonzero : V.slots (p.1, 1036) ≠ 0 := by rw [stored]; exact fun zero => table (uint32_eq_zero.mp zero)
      rw [← stored]
      exact rep.data _ (own.not_meta nonzero)
  · rfl

theorem Rep.own_volOf {s : FsState Disk} (rep : Rep s V) (own : Own R V) : Own R (volOf s) := by
  have used (b : Nat) (h : V.Used b) : (volOf s).Used b := by
    refine ⟨?_, (rep.used b h.1).trans h.2⟩
    have : (volOf s).blocks = V.blocks := by rw [Vol.blocks, Vol.blocks, ← rep.groups]; rfl
    rw [this]
    exact h.1
  refine ⟨?_, fun b isMeta => own.reserved b ?_⟩
  · rw [rep.slots own]
    exact own.owns.grow used
  · rw [← rep.groups]
    exact isMeta

def Sound (R : Nat → Prop) (K : UInt16 → Prop) (s : FsState Disk) : Prop :=
  ∃ V D, Rep s V ∧ Consistent R K V D

theorem reach_sound {ok : FsState Disk → Call → Prop}
    (safe : ∀ s V D c, Rep s V → Consistent R K V D → ok s c → Call.Safe K V D c) {s t : FsState Disk}
    (start : Sound R K s) (reach : Reach ok s t) : Sound R K t := by
  induction reach with
  | start => exact start
  | call before admitted run ih =>
      obtain ⟨V, D, rep, consistent⟩ := ih
      obtain ⟨V', D', rep', consistent', -⟩ := exec_post rep consistent (safe _ V D _ rep consistent admitted) run
      exact ⟨V', D', rep', consistent'⟩

theorem reachBoot_sound {ok : FsState Disk → Call → Prop}
    (safe : ∀ s V D c, Rep s V → Consistent R K V D → ok s c → Call.Safe K V D c) {s t : FsState Disk}
    (start : Sound R K s) (reach : ReachBoot ok s t) : Sound R K t := by
  induction reach with
  | start => exact start
  | call before admitted run ih =>
      obtain ⟨V, D, rep, consistent⟩ := ih
      obtain ⟨V', D', rep', consistent', -⟩ := exec_post rep consistent (safe _ V D _ rep consistent admitted) run
      exact ⟨V', D', rep', consistent'⟩
  | reboot before sync mount ih =>
      obtain ⟨V, D, rep, consistent⟩ := ih
      exact ⟨V.reboot, D, rep.reboot sync mount, consistent.reboot⟩

theorem mkfs_sound {sizeMb : Nat} {img : Disk} {heap : Nat → Bool} {s : FsState Disk} (one : (Geometry.ofMb sizeMb).nrGroups = 1)
    (made : mkfs sizeMb = some img)
    (mounted : swiftfs2Mount.run (FsState.boot img heap) = some (0, s))
    (isDir : ∀ x : Inode, x.isDir = true → K x.mode) :
    Sound (Geometry.Reserved (Geometry.ofMb sizeMb)) K s := by
  obtain ⟨d, formatted⟩ := mkfs_formatted one made
  obtain ⟨booted, -⟩ := formatted.booted (by omega) mounted
  exact ⟨volWith false s, rootDirs, rep_volWith booted.layout (by simp), booted.consistent formatted isDir false⟩

/-- The name has 1 to 254 bytes and the parent path leads to a directory. -/
def GoodName (s : FsState Disk) (path : CString) : Prop :=
  1 ≤ (splitParent path.bytes).2.length ∧ (splitParent path.bytes).2.length ≤ 254 ∧
    ∃ p t, (parentWalk path.bytes).run s = some (some p, t) ∧ (inodeAt s p).isDir = true

/-- Calls with reasonable paths that do not write to directories. -/
def Admissible (s : FsState Disk) : Call → Prop
  | .open_ path flags => path.bytes.length < 510 ∧
      (flags &&& oCreat ≠ 0 → ∀ t, (pathWalk path.bytes).run s = some (none, t) → GoodName s path)
  | .write fd _ => fdOpen s.fds fd = true → (inodeAt s (s.fds fd.toNat).inode).isDir = false
  | .mkdir path _ => path.bytes.length < 510 ∧ GoodName s path
  | .unlink path => path.bytes.length < 510 ∧ GoodName s path
  | .ls path => path.bytes.length < 510
  | _ => True

def dirModes (mode : UInt16) : Prop := mode &&& sIfdir ≠ 0

theorem dirModes_isDir (x : Inode) : dirModes x.mode ↔ x.isDir = true := by simp [dirModes, Inode.isDir]

section Walks
variable {s t : FsState Disk} {path : CString}

theorem pathWalk_run (rep : Rep s V) (consistent : Consistent R K V D) {found : Option Nat}
    (run : (pathWalk path.bytes).run s = some (found, t)) : found = resolve V D path.bytes := by
  obtain ⟨a, s', V', run', -, rfl, rfl⟩ := runs_pathWalk consistent path.nul s rep
  exact (Prod.mk.inj (Option.some.inj (run.symm.trans run'))).1

theorem run_pathWalk (rep : Rep s V) (consistent : Consistent R K V D) (path : CString) :
    ∃ t, (pathWalk path.bytes).run s = some (resolve V D path.bytes, t) ∧ Rep t V := by
  obtain ⟨a, s', V', run, rep', rfl, rfl⟩ := runs_pathWalk consistent path.nul s rep
  exact ⟨s', run, rep'⟩

theorem run_parentWalk (rep : Rep s V) (consistent : Consistent R K V D) (path : CString) :
    ∃ t, (parentWalk path.bytes).run s = some (parentOf V D path.bytes, t) ∧ Rep t V := by
  obtain ⟨a, s', V', run, rep', rfl, rfl⟩ := runs_parentWalk consistent path.nul s rep
  exact ⟨s', run, rep'⟩

theorem GoodName.addable (rep : Rep s V) (consistent : Consistent R dirModes V D) (good : GoodName s path) :
    Addable dirModes V D path.bytes := by
  obtain ⟨-, short, p, t, run, isDir⟩ := good
  obtain ⟨t', run', -⟩ := run_parentWalk rep consistent path
  have found : some p = parentOf V D path.bytes := (Prod.mk.inj (Option.some.inj (run.symm.trans run'))).1
  refine ⟨short, fun q hq => ?_⟩
  obtain rfl : p = q := Option.some.inj (found.trans hq)
  rw [dirModes_isDir, ← rep.inode p (consistent.parentOf_lt hq)]
  exact isDir

end Walks

theorem Admissible.safe {s : FsState Disk} (rep : Rep s V) (consistent : Consistent R dirModes V D)
    (admitted : Admissible s c) : Call.Safe dirModes V D c := by
  cases c with
  | open_ path flags =>
      intro missing creat
      obtain ⟨t, run, -⟩ := run_pathWalk rep consistent path
      rw [missing] at run
      exact (admitted.2 creat t run).addable rep consistent
  | write fd buf =>
      intro opened _
      have file := admitted (by rw [rep.fds]; exact opened)
      rw [rep.fds, rep.inode _ (consistent.fds _)] at file
      rw [dirModes_isDir, file]
      decide
  | mkdir path mode => exact admitted.2.addable rep consistent
  | unlink path => exact admitted.2.addable rep consistent
  | read => trivial
  | close => trivial
  | ls => trivial
  | sync => trivial

/-- Every block number stored in an inode or an indirect table of a state is used, stored once, and neither
metadata nor journal. -/
theorem stored_blocks_exclusive {sizeMb : Nat} {img : Disk} {heap : Nat → Bool} {s₀ s : FsState Disk}
    (one : (Geometry.ofMb sizeMb).nrGroups = 1) (made : mkfs sizeMb = some img)
    (mounted : swiftfs2Mount.run (FsState.boot img heap) = some (0, s₀)) (reach : Reach Admissible s₀ s) :
    (∀ p b, (volOf s).slots p = b → b ≠ 0 →
      usedAt s b = true ∧ (∀ q, (volOf s).slots q = b → q = p) ∧ ¬ Meta s.nrGroups b ∧
        ¬ ((Geometry.ofMb sizeMb).journalBlock ≤ b ∧ b < (Geometry.ofMb sizeMb).journalBlock + 8192)) ∧
      ∀ c, Admissible s c → ∃ r t, c.exec.run s = some (r, t) := by
  obtain ⟨V, D, rep, consistent⟩ := reach_sound (fun _ _ _ _ => Admissible.safe)
    (mkfs_sound one made mounted fun x => (dirModes_isDir x).mpr) reach
  have own := rep.own_volOf consistent.own
  refine ⟨?_, fun c admitted => exec_isSome rep consistent (admitted.safe rep consistent)⟩
  rintro p b rfl nonzero
  have reserved := own.owns.unreserved p nonzero
  refine ⟨(own.owns.marked p nonzero).2, fun q same => ?_, fun isMeta => reserved (own.reserved _ isMeta),
    fun journal => reserved (.inr ⟨?_, journal⟩)⟩
  · exact (own.owns.unique p q nonzero same.symm).symm
  · unfold Vol.slots
    split
    · exact slot_lt _ _ _
    · decide

/-- `/bin`, the directory the kernel makes at every boot. -/
def binPath : CString := ⟨[0x2f, 0x62, 0x69, 0x6e], by decide⟩

theorem isDir_rootInode (d : Nat) : (rootInode d).isDir = true := by
  have mode : (rootInode d).mode = sIfdir ||| 0o755 := rfl
  rw [Inode.isDir, mode]
  decide

theorem Booted.admissible_bin {d : Nat} {G : Geometry} {s : FsState Disk} (booted : Booted G d s)
    (positive : 0 < G.nrGroups) : Admissible s (.mkdir binPath 0o755) := by
  refine ⟨by decide, by decide, by decide, 1, s, rfl, ?_⟩
  rw [booted.inode 1 (by omega), if_pos rfl]
  exact isDir_rootInode d

theorem stored_blocks_exclusive_bin : ∃ img s₀ r s, mkfs 128 = some img ∧
    swiftfs2Mount.run (FsState.boot img fun _ => true) = some (0, s₀) ∧
    (Call.mkdir binPath 0o755).exec.run s₀ = some (r, s) ∧
    ∀ p b, (volOf s).slots p = b → b ≠ 0 → usedAt s b = true := by
  obtain ⟨img, s₀, d, made, mounted, -, formatted, booted⟩ := mkfs_128
  have admitted := booted.admissible_bin formatted.fine.positive
  obtain ⟨r, s, run⟩ := (stored_blocks_exclusive (by decide) made mounted .start).2 _ admitted
  exact ⟨img, s₀, r, s, made, mounted, run, fun p b stored nonzero =>
    ((stored_blocks_exclusive (by decide) made mounted (.call .start admitted run)).1 p b stored nonzero).1⟩

end SwiftBSD.Proof.Fs
