import SwiftBSD.Proof.Fs.Creating
import SwiftBSD.Proof.Fs.Files
import SwiftBSD.Proof.Fs.Reboot
import SwiftBSD.Proof.Fs.Room

namespace SwiftBSD.Proof.Fs
open Lib SwiftBSD.Fs

variable {R : Nat → Prop} {V V' : Vol} {D D' : Nat → List (List Rec)} {i fd p : Nat} {s t u : FsState Disk} {c : Call} {r : Result}
  {calls : List (Call × Result)}

def view (s : FsState Disk) : ByteFiles Nat Nat UInt8 := files (volOf s)

theorem Rep.view (rep : Rep s V) (consistent : Consistent R dirModes V D) : view s = files V := by
  have inodes : (volOf s).inodes = V.inodes := by
    rw [Vol.inodes, Vol.inodes, ← rep.groups]
    rfl
  refine files_ext (fun j => ?_) fun k => ?_
  · unfold Fs.view files
    dsimp only
    rw [inodes]
    by_cases hj : j < V.inodes
    · rw [show (volOf s).inode j = V.inode j from rep.inode j hj, show (volOf s).data = s.dev.block from rfl]
      have same := rep.fileContents consistent.own hj
      rw [Fs.fileContents, rep.inode j hj] at same
      rw [same]
    · rw [if_neg fun h => hj h.1, if_neg fun h => hj h.1]
  · unfold Fs.view files cursorOf
    dsimp only
    rw [show (volOf s).fds = V.fds from rep.fds, show (volOf s).inode (V.fds k).inode = V.inode (V.fds k).inode from rep.inode _ (consistent.fds k)]

/-- Admissible calls that do not pull a file away from under a descriptor, nor wrap around in a read. -/
def Careful (s : FsState Disk) (c : Call) : Prop :=
  Admissible s c ∧ match c with
  -- a name may lead to a freed inode once a directory was unlinked
  | .open_ path flags => ∀ i t, (pathWalk path.bytes).run s = some (some i, t) →
      (inodeAt s i).mode ≠ 0 ∧ (flags &&& oTrunc ≠ 0 → ∀ fd, (s.fds fd).inode ≠ i)
  | .read fd size => (s.fds fd.toNat).pos + size.toNat < 2 ^ 32
  | .unlink path => ∀ i t, (pathWalk path.bytes).run s = some (some i, t) → ∀ fd, (s.fds fd).inode ≠ i
  | _ => True

theorem reachBoot_admissible {s₀ : FsState Disk} (reach : ReachBoot Careful s₀ s) : ReachBoot Admissible s₀ s := by
  induction reach with
  | start => exact .start
  | call _ careful run ih => exact .call ih careful.1 run
  | reboot _ sync mount ih => exact .reboot ih sync mount

/-- The events that a call with a result stands for. -/
inductive Explains (s : FsState Disk) : Call → Result → List Event → Prop
  | notOpened {path : CString} {flags : UInt32} {r : Result} (failed : r.value = -1) : Explains s (.open_ path flags) r []
  | opened {path : CString} {flags : UInt32} {r : Result} {i : Nat} {t : FsState Disk} {es : List Event}
      (found : (pathWalk path.bytes).run s = some (some i, t)) (opens : Opens (isFile (inodeAt s i)) flags i r.value es) :
      Explains s (.open_ path flags) r es
  | created {path : CString} {flags : UInt32} {r : Result} {i : Nat} {t : FsState Disk} {es : List Event}
      (missing : (pathWalk path.bytes).run s = some (none, t)) (creat : flags &&& oCreat ≠ 0) (opens : Opens true flags i r.value es) :
      Explains s (.open_ path flags) r (.make i :: es)
  | read {fd : Int} {n : UInt32} {r : Result} {es : List Event}
      (reads : Reads s.fds (isFile (inodeAt s (s.fds fd.toNat).inode)) fd n.toNat r.value r.bytes es) : Explains s (.read fd n) r es
  | write {fd : Int} {buf : List UInt8} {r : Result} {es : List Event} (writes : Writes s.fds fd buf r.value es) :
      Explains s (.write fd buf) r es
  | notClosed {fd : Int} {r : Result} (failed : r.value = -1) (why : fdOpen s.fds fd = false) : Explains s (.close fd) r []
  | closed {fd : Int} {r : Result} (success : r.value = 0) : Explains s (.close fd) r [.stop fd.toNat]
  | mkdir {path : CString} {mode : UInt16} {r : Result} : Explains s (.mkdir path mode) r []
  | unlink {path : CString} {r : Result} {target : Option Nat} {t : FsState Disk} {es : List Event}
      (walked : (pathWalk path.bytes).run s = some (target, t)) (drops : Drops (fun i => isFile (inodeAt s i)) target r.value es) :
      Explains s (.unlink path) r es
  | ls {path : CString} {r : Result} : Explains s (.ls path) r []
  | sync {r : Result} : Explains s .sync r []

theorem Addable.dirs {path : List UInt8} (addable : Addable dirModes V D path) (q : Nat) (parent : parentOf V D path = some q) :
    (V.inode q).isDir = true := (dirModes_isDir _).mp (addable.2 q parent)

theorem Held.clean (held : Held V) : Leads V [] { V with fds := cleanFds V.fds } := by
  have inode (k : Nat) : (cleanFds V.fds k).inode = (V.fds k).inode := by
    unfold cleanFds
    split <;> rfl
  have pos (k : Nat) : (cleanFds V.fds k).pos = (V.fds k).pos := by
    unfold cleanFds
    split <;> rfl
  refine held.same (files_ext (fun _ => rfl) fun k => ?_) held.solid fun k => ?_
  · unfold files cursorOf
    dsimp only
    rw [inode, pos]
  · dsimp only
    rw [inode]
    exact held.live k

theorem read_opened {fd : Int} {n : Nat} {value : Int} {bytes : List UInt8} (run : (swiftfs2Read fd n).run s = some ((value, bytes), u))
    (success : value ≠ -1) : fdOpen s.fds fd = true ∧ (s.fds fd.toNat).flags ≠ oWronly := by
  unfold swiftfs2Read at run
  rw [run_bind_some (StateT.run_get s)] at run
  split at run
  · cases run
    exact absurd rfl success
  · next opened =>
      dsimp only at run
      split at run
      · cases run
        exact absurd rfl success
      · next readable => exact ⟨by simpa using opened, readable⟩

theorem Careful.explained (careful : Careful s c) (rep : Rep s V) (consistent : Consistent R dirModes V D) (held : Held V)
    (run : c.exec.run s = some (r, u)) : ∃ V' D' es, Rep u V' ∧ Consistent R dirModes V' D' ∧ Explains s c r es ∧ Leads V es V' := by
  have safe := careful.1.safe rep consistent
  obtain ⟨V', D', rep', consistent', post⟩ := exec_post rep consistent safe run
  suffices done : ∃ es, Explains s c r es ∧ Leads V es V' by
    obtain ⟨es, explains, moved⟩ := done
    exact ⟨V', D', es, rep', consistent', explains, moved⟩
  obtain ⟨admitted, careful⟩ := careful
  obtain ⟨value, bytes, entries⟩ := r
  have inode {i : Nat} (hi : i < V.inodes) : isFile (inodeAt s i) = isFile (V.inode i) := by rw [rep.inode i hi]
  cases c with
  | open_ path flags =>
      obtain ⟨t, walked, -⟩ := run_pathWalk rep consistent path
      cases post.2 with
      | missing => exact ⟨[], .notOpened rfl, held.refl⟩
      | notCreated none creat create =>
          exact ⟨[], .notOpened rfl, create.movedNone rfl held (safe none creat).dirs⟩
      | @existing i _ _ _ found rest =>
          rw [found] at walked
          have hi := consistent.resolve_lt found
          obtain ⟨used, idle⟩ := careful i t walked
          rw [rep.inode i hi] at used
          obtain ⟨es, opens, moved⟩ := rest.moved held hi (Nat.pos_iff_ne_zero.mp (resolve_pos found)) used fun trunc fd _ => by
            rw [← rep.fds]
            exact idle trunc fd
          exact ⟨es, .opened walked (by rwa [inode hi]), moved⟩
      | @created i _ V₁ _ _ _ none creat create rest =>
          rw [none] at walked
          have dirs := (safe none creat).dirs
          have made := create.moved held dirs
          have file : isFile (V₁.inode i) = true := by
            unfold isFile Inode.isDir
            rw [create.file dirs]
            decide
          obtain ⟨p, free⟩ : ∃ p, V.FreeIno i ∧ parentOf V D path.bytes = some p := by
            cases create with
            | created parent free => exact ⟨_, free, parent⟩
          have idle : ∀ fd, (V₁.fds fd).inode ≠ 0 → (V₁.fds fd).inode ≠ i := by
            rw [create.fds]
            exact held.idle free.1.2.2.2
          obtain ⟨es, opens, moved⟩ := rest.moved made.held create.lt (Nat.pos_iff_ne_zero.mp free.1.1) (isFile_iff.mp file).1 fun _ => idle
          rw [file] at opens
          exact ⟨_, .created walked creat opens, made.trans moved⟩
  | read fd size =>
      obtain ⟨-, read, -⟩ := post
      have opened : value ≠ -1 → fdOpen V.fds fd = true ∧ (V.fds fd.toNat).flags ≠ oWronly := by
        intro success
        obtain ⟨⟨value', bytes'⟩, w, read', result⟩ := run_bind_eq_some.mp run
        cases result
        rw [← rep.fds]
        exact read_opened read' success
      obtain ⟨es, reads, moved⟩ := read.moved consistent held (by rw [← rep.fds]; exact careful) opened
      rw [← inode (consistent.fds _), ← rep.fds] at reads
      exact ⟨es, .read reads, moved⟩
  | write fd buf =>
      obtain ⟨-, write, -⟩ := post
      obtain ⟨es, writes, moved⟩ := write.moved consistent held fun opened => by
        rw [← rep.inode _ (consistent.fds _), ← rep.fds]
        exact admitted (by rwa [rep.fds])
      rw [← rep.fds] at writes
      exact ⟨es, .write writes, moved⟩
  | close fd =>
      obtain ⟨-, ⟨result, rfl, closed⟩ | ⟨result, rfl⟩⟩ := post
      · exact ⟨[], .notClosed (congrArg Result.value result) (by rwa [rep.fds]), held.refl⟩
      · exact ⟨[.stop fd.toNat], .closed (congrArg Result.value result), held.stop _⟩
  | mkdir path mode => exact ⟨[], .mkdir, post.2.moved held safe.dirs⟩
  | unlink path =>
      obtain ⟨t, walked, -⟩ := run_pathWalk rep consistent path
      obtain ⟨es, drops, moved⟩ := post.2.moved consistent held safe.dirs fun i found fd _ => by
        rw [← rep.fds]
        exact careful i t (by rw [walked, found]) fd
      refine ⟨es, .unlink walked ?_, moved⟩
      cases drops with
      | failed failed => exact .failed failed
      | other leads other => exact .other leads (by rwa [inode (consistent.resolve_lt leads)])
      | dropped leads plain success => exact .dropped leads (by rwa [inode (consistent.resolve_lt leads)]) success
  | ls path =>
      obtain ⟨-, rfl, -⟩ := post
      exact ⟨[], .ls, held.refl⟩
  | sync =>
      obtain ⟨-, rfl, -⟩ := post
      exact ⟨[], .sync, held.clean⟩

/-- A consistent volume whose descriptors and files are in order. -/
structure HeldVol (R : Nat → Prop) (s : FsState Disk) (V : Vol) (D : Nat → List (List Rec)) : Prop where
  rep : Rep s V
  consistent : Consistent R dirModes V D
  held : Held V

theorem Held.cleared (held : Held V) {W : Vol} (inodes : W.inodes = V.inodes) (inode : W.inode = V.inode) (data : W.data = V.data)
    (fds : ∀ fd, (W.fds fd).inode = 0) : Held W where
  solid := by
    rw [inodes, inode, data]
    exact held.solid
  live := fun fd used => absurd (fds fd) used
  good := fun fd i p here => by
    rw [files_cursor_none (.inl (fds fd))] at here
    cases here

theorem reachBoot_held (start : ∃ V D, HeldVol R s V D) (reach : ReachBoot Careful s t) : ∃ V D, HeldVol R t V D := by
  induction reach with
  | start => exact start
  | call before careful run ih =>
      obtain ⟨V, D, rep, consistent, held⟩ := ih
      obtain ⟨V', D', _, rep', consistent', -, moved⟩ := careful.explained rep consistent held run
      exact ⟨V', D', rep', consistent', moved.held⟩
  | reboot before sync mount ih =>
      obtain ⟨V, D, rep, consistent, held⟩ := ih
      exact ⟨V.reboot, D, rep.reboot sync mount, consistent.reboot, held.cleared rfl rfl rfl fun _ => rfl⟩

theorem Booted.held {d : Nat} {G : Geometry} (booted : Booted G d s) : Held (volWith false s) where
  solid := by
    intro i hi file
    have here : (volWith false s).inode i = inodeAt s i := rfl
    have bound : i < 4096 * G.nrGroups := by
      rw [← booted.groups]
      exact hi
    rw [here, booted.inode i bound] at file
    split at file
    · rw [not_file_of_dir (isDir_rootInode d)] at file
      cases file
    · cases file
  live := fun fd used => by
    have none : (volWith false s).fds fd = .zero := congrFun booted.fds fd
    rw [none] at used
    exact absurd rfl used
  good := fun fd i p here => by
    have none : (volWith false s).fds fd = .zero := congrFun booted.fds fd
    rw [files_cursor_none (.inl (by rw [none]; rfl))] at here
    cases here

theorem mkfs_held {sizeMb : Nat} {img : Disk} {heap : Nat → Bool} (one : (Geometry.ofMb sizeMb).nrGroups = 1) (made : mkfs sizeMb = some img)
    (mounted : swiftfs2Mount.run (FsState.boot img heap) = some (0, s)) :
    ∃ V D, HeldVol (Geometry.Reserved (Geometry.ofMb sizeMb)) s V D := by
  obtain ⟨d, formatted⟩ := mkfs_formatted one made
  obtain ⟨booted, -⟩ := formatted.booted (by omega) mounted
  exact ⟨volWith false s, rootDirs, rep_volWith booted.layout (by simp), booted.consistent formatted (fun x => (dirModes_isDir x).mpr) false,
    booted.held⟩

/-- Calls, one after the other, with what they return. -/
inductive Ran {σ : Type} [BlockStore σ] (ok : FsState σ → Call → Prop) : FsState σ → List (Call × Result) → FsState σ → Prop
  | nil {s : FsState σ} : Ran ok s [] s
  | cons {s t u : FsState σ} {c : Call} {r : Result} {calls : List (Call × Result)} (admitted : ok s c)
      (run : c.exec.run s = some (r, u)) (rest : Ran ok u calls t) : Ran ok s ((c, r) :: calls) t

theorem Ran.viewed {ok : FsState Disk → Call → Prop} {a b : FsState Cache} {L : Nat → Block} (stands : Stands a.dev L)
    (run : Ran (Checked ok) a calls b) : (∃ M, Stands b.dev M) ∧ Ran ok (viewed a) calls (viewed b) := by
  induction run generalizing L with
  | nil => exact ⟨⟨L, stands⟩, .nil⟩
  | cons admitted run _ ih =>
      obtain ⟨other, okay, noStale⟩ := admitted
      obtain ⟨⟨M, stands'⟩, run'⟩ := noStale.viewed other stands run
      obtain ⟨after, rest⟩ := ih stands'
      exact ⟨after, .cons okay run' rest⟩

/-- What is seen through the cache after careful calls and reboots. -/
theorem held_viewed {sizeMb : Nat} {img : Disk} {heap : Nat → Bool} {s₀ s : FsState Cache} (one : (Geometry.ofMb sizeMb).nrGroups = 1)
    (made : mkfs sizeMb = some img) (mounted : swiftfs2Mount.run (FsState.boot (Cache.boot img) heap) = some (0, s₀))
    (reach : ReachBoot (Checked Careful) s₀ s) :
    (∃ L, Stands s.dev L) ∧ ReachBoot Careful (viewed s₀) (viewed s) ∧
      ∃ V D, HeldVol (Geometry.Reserved (Geometry.ofMb sizeMb)) (viewed s) V D := by
  obtain ⟨stands, mounted'⟩ := mounted_viewed mounted
  have held := mkfs_held one made mounted'
  obtain ⟨after, reach'⟩ := reachBoot_viewed stands (fun u reach => by obtain ⟨V, D, vol⟩ := reachBoot_held held reach; exact vol.rep.layout) reach
  exact ⟨after, reach', reachBoot_held held reach'⟩

inductive Told : FsState Disk → List (Call × Result) → FsState Disk → List Event → Prop
  | nil {s : FsState Disk} : Told s [] s []
  | cons {s t u : FsState Disk} {c : Call} {r : Result} {calls : List (Call × Result)} {es fs : List Event} (run : c.exec.run s = some (r, u))
      (here : Explains s c r es) (rest : Told u calls t fs) : Told s ((c, r) :: calls) t (es ++ fs)

theorem HeldVol.told (vol : HeldVol R s V D) (run : Ran Careful s calls t) :
    ∃ V' D' es, HeldVol R t V' D' ∧ Told s calls t es ∧ ByteFiles.Run (files V) es (files V') := by
  induction run generalizing V D with
  | nil => exact ⟨V, D, [], vol, .nil, .nil⟩
  | cons careful run _ ih =>
      obtain ⟨V₁, D₁, es, rep, consistent, explains, moved⟩ := careful.explained vol.rep vol.consistent vol.held run
      obtain ⟨V', D', fs, vol', told, rest⟩ := ih ⟨rep, consistent, moved.held⟩
      exact ⟨V', D', es ++ fs, vol', .cons run explains told, moved.run.append rest⟩

/-- What the runs below start from: an empty file, open for reading and writing. -/
structure EmptyFile (s : FsState Disk) (i fd : Nat) : Prop where
  groups : s.nrGroups = 1
  upper : fd < 64
  slot : s.fds fd = ⟨i, 0, oCreat ||| oRdwr, false⟩
  nonzero : i ≠ 0
  file : isFile (inodeAt s i) = true
  empty : fileContents s i = []
  named : ∃ t, (pathWalk filePath.bytes).run s = some (some i, t)

def Spacious (s : FsState Disk) : Prop :=
  ∃ V D, Rep s V ∧ Consistent (Geometry.Reserved (Geometry.ofMb 128)) dirModes V D ∧ V.roomy = true ∧ 1999 ≤ V.avail

/-- An empty file that is seen through the cache, with the bitmaps in memory. -/
theorem emptyFile_cache_128 : ∃ (img : Disk) (s₀ s : FsState Cache) (i fd : Nat) (V : Vol), mkfs 128 = some img ∧
    swiftfs2Mount.run (FsState.boot (Cache.boot img) fun _ => true) = some (0, s₀) ∧ ReachBoot (Checked Careful) s₀ s ∧
    EmptyFile (viewed s) i fd ∧ Spacious (viewed s) ∧ Shown (FsState.onto s (Pinned.mk s.dev)) V := by
  obtain ⟨img, s₀, s₁, s, r₁, r, V', D', made, mounted, file, shown, space⟩ := created_cache_128
  obtain ⟨stands, mounted'⟩ := mounted_viewed mounted
  have packed := mkfs_packed (by decide) made mounted'
  have opened := file.opened
  obtain ⟨w, missing⟩ := opened.missing
  have notSync : Call.open_ filePath (oCreat ||| oRdwr) ≠ .sync := fun same => nomatch same
  have careful : Careful (viewed s₁) (.open_ filePath (oCreat ||| oRdwr)) := by
    refine ⟨opened.growing.1, fun i t found => ?_⟩
    cases (Prod.mk.inj (Option.some.inj (missing.symm.trans found))).1
  obtain ⟨⟨L, stands₁⟩, seen⟩ := file.bin.2.2.viewed file.bin.1 stands file.made
  obtain ⟨V₁, D₁, packed₁, -⟩ := reachBoot_grows packed (.call .start file.bin.2.1 seen)
  obtain ⟨V, D, vol, grows⟩ := reachBoot_grows packed (.call (.call .start file.bin.2.1 seen) opened.growing opened.run)
  obtain ⟨i, t, nonzero, -, mode, size, slot, named⟩ := packed₁.created opened.growing missing opened.parent opened.few opened.run opened.success
  obtain ⟨img', s', d, made', mounted'', -, -, booted⟩ := mkfs_128
  obtain rfl := Option.some.inj (made'.symm.trans made)
  obtain rfl := (Prod.mk.inj (Option.some.inj (mounted''.symm.trans mounted'))).2
  have groups : (volWith false (viewed s₀)).groups = 1 := booted.groups.trans (by decide)
  refine ⟨img', s₀, s, i, r.value.toNat, V', made, mounted,
    .call (.call .start ⟨file.bin.1, ⟨file.bin.2.1.1, trivial⟩, file.bin.2.2⟩ file.made) ⟨notSync, careful, file.fresh⟩ file.ran,
    ⟨?_, opened.upper, slot, nonzero, ?_, contents_empty size, t, named⟩, ⟨V', D', space⟩, shown⟩
  · have inodes := grows.inodes
    rw [Vol.inodes, Vol.inodes, groups] at inodes
    rw [vol.rep.groups]
    omega
  · unfold isFile Inode.isDir
    rw [mode]
    decide

theorem emptyFile_128 : ∃ img s₀ s i fd, mkfs 128 = some img ∧ swiftfs2Mount.run (FsState.boot img fun _ => true) = some (0, s₀) ∧
    ReachBoot Careful s₀ s ∧ EmptyFile s i fd ∧ Spacious s := by
  obtain ⟨img, s₀, s, i, fd, V, made, mounted, reach, file, space, -⟩ := emptyFile_cache_128
  exact ⟨img, viewed s₀, viewed s, i, fd, made, (mounted_viewed mounted).2, (held_viewed (by decide) made mounted reach).2.1, file, space⟩

theorem EmptyFile.inode (file : EmptyFile s i fd) : (s.fds fd).inode = i := by rw [file.slot]

theorem EmptyFile.atEnd (file : EmptyFile s i fd) : (s.fds fd).pos = (fileContents s i).length := by
  rw [file.slot, file.empty]
  rfl

theorem EmptyFile.careful_write (file : EmptyFile s i fd) (buf : List UInt8) : Careful s (.write fd buf) := by
  refine ⟨fun _ => ?_, trivial⟩
  rw [Int.toNat_natCast, file.inode]
  exact (isFile_iff.mp file.file).2

theorem careful_read {size : UInt32} (word : (s.fds fd).pos + size.toNat < 2 ^ 32) : Careful s (.read fd size) := by
  refine ⟨trivial, ?_⟩
  dsimp only
  rwa [Int.toNat_natCast]

theorem HeldVol.call (vol : HeldVol R s V D) (careful : Careful s c) : ∃ r u, c.exec.run s = some (r, u) :=
  exec_isSome vol.rep vol.consistent (careful.1.safe vol.rep vol.consistent)

/-- A volume of one group can be synced and mounted again. -/
theorem Layout.remounts {s : FsState Cache} (layout : Layout s) (one : s.nrGroups = 1) :
    ∃ s₁ v, swiftfs2Sync.run s = some (0, s₁) ∧ swiftfs2Mount.run (FsState.boot s₁.dev fun _ => true) = some (0, v) := by
  obtain ⟨d, sync, synced⟩ := sync_run raw_cache layout
  have super : Super.ofBlock (d.disk 0) = s.sb := by rw [synced.super, super_ofBlock_toBlock]
  have few : s.sb.descBlocks = 1 := by
    rw [super_descBlocks layout.count layout.bound, one]
    decide
  have again : Mountable d.disk (fun _ => true) s.sb := by
    refine ⟨super, layout.magic, layout.blockSize, ?_, ?_, ?_⟩
    · rw [few, layout.desc, one]
      decide
    · rw [few]
      decide
    · rw [layout.count, one]
      decide
  exact ⟨_, _, sync, (boot_mount raw_cache).mpr ⟨s.sb, again, rfl⟩⟩

theorem EmptyFile.write {s : FsState Cache} {W : Vol} (file : EmptyFile (viewed s) i fd) (vol : HeldVol R (viewed s) V D)
    (shown : Shown (FsState.onto s (Pinned.mk s.dev)) W) (buf : List UInt8) :
    Checked Careful s (.write fd buf) ∧ ∃ r t, (Call.write fd buf).exec.run s = some (r, t) := by
  have notSync : Call.write fd buf ≠ .sync := fun same => nomatch same
  obtain ⟨r, t, run⟩ := vol.call (file.careful_write buf)
  have noStale := shown.plain (c := .write fd buf) trivial run
  exact ⟨⟨notSync, file.careful_write buf, noStale⟩, noStale.run notSync⟩

/-- Nothing is written to the file, and the descriptor is not closed. -/
def LeavesFile (i fd : Nat) (s : FsState Disk) : Call → Prop
  | .write fd' _ => (s.fds fd'.toNat).inode ≠ i
  | .close fd' => fd'.toNat ≠ fd
  | _ => True

/-- The bytes that a call has read through a descriptor. -/
def bytesRead (fd : Nat) : Call × Result → List UInt8
  | (.read fd' _, r) => if fd' = fd then r.bytes else []
  | _ => []

theorem Opens.silent {file : Bool} {flags : UInt32} {j : Nat} {value : Int} {es : List Event} (opens : Opens file flags j value es) (fd : Nat) :
    ByteFiles.heard fd es = [] ∧ ByteFiles.told fd es = [] ∧ ∀ e ∈ es, (∃ k, e = .cut k) ∨ ∃ k l, e = .start k l := by
  cases opens with
  | failed | other => exact ⟨rfl, rfl, nofun⟩
  | opened =>
      unfold cutEvents startEvents
      split <;> split <;> simp [ByteFiles.heard, ByteFiles.told]

theorem Drops.silent {file : Nat → Bool} {target : Option Nat} {value : Int} {es : List Event} (drops : Drops file target value es) (fd : Nat) :
    ByteFiles.heard fd es = [] ∧ ByteFiles.told fd es = [] ∧ ∀ e ∈ es, ∃ k, e = .drop k := by
  cases drops with
  | failed | other => exact ⟨rfl, rfl, nofun⟩
  | dropped => exact ⟨rfl, rfl, by simp⟩

theorem toNat_open {fds : Nat → Fd} {fd' : Int} (opened : fdOpen fds fd' = true) : fd'.toNat = fd ↔ fd' = fd := by
  simp only [fdOpen, Bool.and_eq_true, decide_eq_true_eq] at opened
  omega

theorem Explains.events {es : List Event} (explains : Explains s c r es) : ∀ e ∈ es, (∀ i fd, ByteFiles.Quiet i fd e ∧ ByteFiles.Alone i fd e) ∨
    (∃ fd buf data, c = .write fd buf ∧ e = .write fd.toNat (s.fds fd.toNat).inode data) ∨ ∃ fd, c = .close fd ∧ e = .stop fd.toNat := by
  cases explains with
  | notOpened | notClosed | mkdir | ls | sync => exact nofun
  | opened _ opens =>
      intro e member
      rcases (opens.silent 0).2.2 e member with ⟨_, rfl⟩ | ⟨_, _, rfl⟩ <;> exact .inl fun _ _ => ⟨trivial, trivial⟩
  | created _ _ opens =>
      intro e member
      rcases List.mem_cons.mp member with rfl | member
      · exact .inl fun _ _ => ⟨trivial, trivial⟩
      · rcases (opens.silent 0).2.2 e member with ⟨_, rfl⟩ | ⟨_, _, rfl⟩ <;> exact .inl fun _ _ => ⟨trivial, trivial⟩
  | read reads =>
      intro e member
      cases reads with
      | refused | other => cases member
      | read => exact .inl fun _ _ => List.mem_singleton.mp member ▸ ⟨trivial, trivial⟩
  | write writes =>
      intro e member
      cases writes with
      | refused => cases member
      | wrote => exact .inr (.inl ⟨_, _, _, rfl, List.mem_singleton.mp member⟩)
  | closed =>
      intro e member
      exact .inr (.inr ⟨_, rfl, List.mem_singleton.mp member⟩)
  | unlink _ drops =>
      intro e member
      obtain ⟨_, rfl⟩ := (drops.silent 0).2.2 e member
      exact .inl fun _ _ => ⟨trivial, trivial⟩

theorem Explains.quiet {es : List Event} (explains : Explains s c r es) (spares : LeavesFile i fd s c) : ∀ e ∈ es, ByteFiles.Quiet i fd e := by
  intro e member
  rcases explains.events e member with neither | ⟨_, _, _, rfl, rfl⟩ | ⟨_, rfl, rfl⟩
  · exact (neither i fd).1
  · exact spares
  · exact spares

theorem Explains.heard {es : List Event} (explains : Explains s c r es) (file : isFile (inodeAt s (s.fds fd).inode) = true) :
    ByteFiles.heard fd es = bytesRead fd (c, r) := by
  cases explains with
  | notOpened | notClosed | mkdir | ls | sync | closed => rfl
  | opened _ opens => exact (opens.silent fd).1
  | created _ _ opens => exact (opens.silent fd).1
  | unlink _ drops => exact (drops.silent fd).1
  | write writes => cases writes <;> rfl
  | @read fd' n _ _ reads =>
      unfold bytesRead
      dsimp only
      cases reads with
      | refused _ none =>
          rw [none]
          split <;> rfl
      | other other =>
          rw [if_neg]
          · rfl
          · rintro rfl
            rw [Int.toNat_natCast, file] at other
            cases other
      | read opened =>
          simp only [ByteFiles.heard, toNat_open opened, List.append_nil]

theorem HeldVol.hears {bs rest : List UInt8} (vol : HeldVol R s V D) (run : Ran (fun s c => Careful s c ∧ LeavesFile i fd s c) s calls t)
    (hears : ByteFiles.Hears (files V) fd i bs rest) :
    ∃ V' D' rest', HeldVol R t V' D' ∧ ByteFiles.Hears (files V') fd i bs rest' ∧ rest = calls.flatMap (bytesRead fd) ++ rest' := by
  induction run generalizing V D rest with
  | nil => exact ⟨V, D, rest, vol, hears, rfl⟩
  | @cons s t u c r calls admitted run _ ih =>
      obtain ⟨V₁, D₁, es, rep, consistent, explains, moved⟩ := admitted.1.explained vol.rep vol.consistent vol.held run
      have file : isFile (inodeAt s (s.fds fd).inode) = true := by
        obtain ⟨p, here, -⟩ := hears.here
        obtain ⟨inode, -, -, plain⟩ := files_cursor_some here
        rw [vol.rep.fds, vol.rep.inode _ (vol.consistent.fds fd), inode]
        exact plain
      obtain ⟨middle, hears', split⟩ := moved.run.hears (explains.quiet admitted.2) hears
      obtain ⟨V', D', rest', vol', hears'', split'⟩ := ih ⟨rep, consistent, moved.held⟩ hears'
      refine ⟨V', D', rest', vol', hears'', ?_⟩
      rw [split, split', explains.heard file, List.flatMap_cons, List.append_assoc]

theorem files_bytes_some {bs : List UInt8} (here : (files V).bytes i = some bs) :
    i < V.inodes ∧ isFile (V.inode i) = true ∧ contents V.data (V.inode i) = bs := by
  unfold files at here
  dsimp only at here
  split at here
  · next inside => exact ⟨inside.1, inside.2, Option.some.inj here⟩
  · cases here

theorem HeldVol.file (vol : HeldVol R s V D) (descriptor : (s.fds fd).inode = i) (nonzero : i ≠ 0) (file : isFile (inodeAt s i) = true) :
    (files V).bytes i = some (fileContents s i) ∧ (files V).cursor fd = some (i, (s.fds fd).pos) := by
  have inode : (V.fds fd).inode = i := by rw [← vol.rep.fds, descriptor]
  have hi : i < V.inodes := inode ▸ vol.consistent.fds fd
  rw [vol.rep.inode i hi] at file
  rw [vol.rep.fileContents vol.consistent.own hi, files_bytes hi file, files_cursor (by rwa [inode]) (by rwa [inode]), inode, vol.rep.fds]
  exact ⟨rfl, rfl⟩

theorem HeldVol.namedFile {path : CString} (vol : HeldVol R s V D) (named : (pathWalk path.bytes).run s = some (some i, t))
    (file : isFile (inodeAt s i) = true) : resolve V D path.bytes = some i ∧ (files V).bytes i = some (fileContents s i) := by
  have leads := (pathWalk_run vol.rep vol.consistent named).symm
  have hi := vol.consistent.resolve_lt leads
  rw [vol.rep.inode i hi] at file
  rw [vol.rep.fileContents vol.consistent.own hi]
  exact ⟨leads, files_bytes hi file⟩

theorem HeldVol.contents {bs : List UInt8} (vol : HeldVol R s V D) (here : (files V).bytes i = some bs) : fileContents s i = bs := by
  obtain ⟨hi, -, same⟩ := files_bytes_some here
  rw [vol.rep.fileContents vol.consistent.own hi, same]

theorem HeldVol.descriptor (vol : HeldVol R s V D) (here : (files V).cursor fd = some (i, p)) :
    (s.fds fd).inode = i ∧ (s.fds fd).pos = p ∧ i ≠ 0 ∧ isFile (inodeAt s i) = true := by
  obtain ⟨inode, pos, nonzero, file⟩ := files_cursor_some here
  have hi : i < V.inodes := inode ▸ vol.consistent.fds fd
  rw [vol.rep.fds, vol.rep.inode i hi]
  exact ⟨inode, pos, nonzero, file⟩

theorem HeldVol.ended {bs : List UInt8} {size : UInt32} (vol : HeldVol R s V D) (file : (files V).bytes i = some bs)
    (here : (files V).cursor fd = some (i, p)) (some_ : 0 < size.toNat) (word : p + size.toNat < 2 ^ 32)
    (run : (Call.read fd size).exec.run s = some (r, u)) (nothing : r.value = 0) : bs.drop p = [] := by
  obtain ⟨inode, pos, -, plain⟩ := vol.descriptor here
  have careful : Careful s (.read fd size) := careful_read (by rwa [pos])
  obtain ⟨V', D', es, -, -, explains, moved⟩ := careful.explained vol.rep vol.consistent vol.held run
  cases explains with
  | read reads =>
      cases reads with
      | refused failed =>
          rw [nothing] at failed
          cases failed
      | other other =>
          rw [Int.toNat_natCast, inode, plain] at other
          cases other
      | read _ length =>
          obtain ⟨j, q, old, here', file', out⟩ := moved.run.single.read_out
          rw [Int.toNat_natCast] at here'
          obtain ⟨rfl, rfl⟩ := Prod.mk.inj (Option.some.inj (here.symm.trans here'))
          obtain rfl := Option.some.inj (file.symm.trans file')
          have empty : r.bytes = [] := by
            rw [nothing] at length
            exact List.length_eq_zero_iff.mp (Int.natCast_eq_zero.mp length.symm)
          rw [empty] at out
          rcases List.take_eq_nil_iff.mp out.symm with zero | done
          · omega
          · exact done

/-- Only this descriptor writes to the file, and it is not closed. -/
def OnlyWriter (i fd : Nat) (s : FsState Disk) : Call → Prop
  | .write fd' _ => (s.fds fd'.toNat).inode = i → fd'.toNat = fd
  | .close fd' => fd'.toNat ≠ fd
  | _ => True

/-- The bytes that a call has written through a descriptor. -/
def bytesWritten (fd : Nat) : Call × Result → List UInt8
  | (.write fd' buf, r) => if fd' = fd then buf.take r.value.toNat else []
  | _ => []

theorem Explains.alone {es : List Event} (explains : Explains s c r es) (only : OnlyWriter i fd s c) : ∀ e ∈ es, ByteFiles.Alone i fd e := by
  intro e member
  rcases explains.events e member with neither | ⟨_, _, _, rfl, rfl⟩ | ⟨_, rfl, rfl⟩
  · exact (neither i fd).2
  · exact only
  · exact only

theorem Explains.told {es : List Event} (explains : Explains s c r es) : ByteFiles.told fd es = bytesWritten fd (c, r) := by
  cases explains with
  | notOpened | notClosed | mkdir | ls | sync | closed => rfl
  | opened _ opens => exact (opens.silent fd).2.1
  | created _ _ opens => exact (opens.silent fd).2.1
  | unlink _ drops => exact (drops.silent fd).2.1
  | read reads => cases reads <;> rfl
  | write writes =>
      unfold bytesWritten
      dsimp only
      cases writes with
      | refused failed =>
          rw [failed]
          split <;> rfl
      | wrote opened count =>
          rw [count, Int.toNat_natCast]
          simp only [ByteFiles.told, toNat_open opened, List.append_nil]

theorem HeldVol.atEnd {bs : List UInt8} (vol : HeldVol R s V D) (run : Ran (fun s c => Careful s c ∧ OnlyWriter i fd s c) s calls t)
    (atEnd : ByteFiles.AtEnd (files V) fd i bs) :
    ∃ V' D', HeldVol R t V' D' ∧ ByteFiles.AtEnd (files V') fd i (bs ++ calls.flatMap (bytesWritten fd)) := by
  induction run generalizing V D bs with
  | nil =>
      rw [List.flatMap_nil, List.append_nil]
      exact ⟨V, D, vol, atEnd⟩
  | @cons s t u c r calls admitted run _ ih =>
      obtain ⟨V₁, D₁, es, rep, consistent, explains, moved⟩ := admitted.1.explained vol.rep vol.consistent vol.held run
      have next := moved.run.atEnd (explains.alone admitted.2) atEnd
      rw [explains.told] at next
      obtain ⟨V', D', vol', atEnd'⟩ := ih ⟨rep, consistent, moved.held⟩ next
      rw [List.append_assoc] at atEnd'
      exact ⟨V', D', vol', atEnd'⟩

theorem HeldVol.reboot {heap : Nat → Bool} {s₁ v : FsState Disk} (vol : HeldVol R s V D) (sync : swiftfs2Sync.run s = some (0, s₁))
    (mount : swiftfs2Mount.run (FsState.boot s₁.dev heap) = some (0, v)) : HeldVol R v V.reboot D :=
  ⟨vol.rep.reboot sync mount, vol.consistent.reboot, vol.held.cleared rfl rfl rfl fun _ => rfl⟩

/-- A new file is written, and the volume is mounted again. -/
structure StoredFile (s : FsState Cache) (i fd : Nat) (buf : List UInt8) (r : Result) (t v : FsState Cache) : Prop where
  write : Checked (fun s c => Careful s c ∧ OnlyWriter i fd s c) s (.write fd buf)
  written : (Call.write fd buf).exec.run s = some (r, t)
  named : ∃ t', (pathWalk filePath.bytes).run (viewed t) = some (some i, t')
  mount : ∃ t₁, swiftfs2Sync.run t = some (0, t₁) ∧ swiftfs2Mount.run (FsState.boot t₁.dev fun _ => true) = some (0, v)

section Stored
variable {s t v : FsState Cache} {W : Vol} {L : Nat → Block} {buf : List UInt8}

theorem EmptyFile.stored (file : EmptyFile (viewed s) i fd) (vol : HeldVol R (viewed s) V D) (stands : Stands s.dev L)
    (shown : Shown (FsState.onto s (Pinned.mk s.dev)) W) (buf : List UInt8) : ∃ r t v, StoredFile s i fd buf r t v := by
  obtain ⟨⟨other, careful, noStale⟩, r, t, written⟩ := file.write vol shown buf
  obtain ⟨-, written'⟩ := noStale.viewed other stands written
  -- the write leaves the names alone
  obtain ⟨W, E, rep, consistent, post⟩ := exec_post vol.rep vol.consistent (careful.1.safe vol.rep vol.consistent) written'
  have data : DataCall (viewed s) (.write fd buf) := fun opened _ => careful.1 opened
  have names := data.sameNames vol.rep vol.consistent post
  obtain ⟨t', found⟩ := file.named
  obtain ⟨w, named, -⟩ := run_pathWalk rep consistent filePath
  rw [names.resolve_eq vol.consistent, ← pathWalk_run vol.rep vol.consistent found] at named
  have one : (viewed t).nrGroups = 1 := by
    have inodes := names.inodes
    rw [Vol.inodes, Vol.inodes, ← vol.rep.groups, ← rep.groups, file.groups] at inodes
    omega
  obtain ⟨t₁, v, sync, mount⟩ := rep.layout.of_onto.remounts one
  exact ⟨r, t, v, ⟨other, ⟨careful, fun _ => Int.toNat_natCast fd⟩, noStale⟩, written, ⟨w, named⟩, t₁, sync, mount⟩

theorem StoredFile.rebooted (stored : StoredFile s i fd buf r t v) (file : EmptyFile (viewed s) i fd) (vol : HeldVol R (viewed s) V D)
    (stands : Stands s.dev L) :
    (∃ M, Stands v.dev M) ∧ ∃ V' D', HeldVol R (viewed v) V' D' ∧ resolve V' D' filePath.bytes = some i ∧
      (files V').bytes i = some ([(Call.write fd buf, r)].flatMap (bytesWritten fd)) ∧ ∀ k, V'.fds k = .zero := by
  obtain ⟨bytes, cursor⟩ := vol.file file.inode file.nonzero file.file
  rw [file.atEnd] at cursor
  obtain ⟨⟨M, stands₁⟩, writing⟩ := (Ran.cons stored.write stored.written .nil).viewed stands
  obtain ⟨V₁, D₁, vol₁, bytes₁, -⟩ := vol.atEnd writing ⟨bytes, cursor⟩
  obtain ⟨t', named⟩ := stored.named
  obtain ⟨t₁, sync, mount⟩ := stored.mount
  obtain ⟨stands₂, e, sync', mount'⟩ := reboot_viewed stands₁ vol₁.rep.layout sync mount
  have leads := (pathWalk_run vol₁.rep vol₁.consistent named).symm
  rw [← resolve_reboot] at leads
  rw [file.empty, List.nil_append] at bytes₁
  exact ⟨⟨_, stands₂⟩, _, D₁, vol₁.reboot sync' mount', leads, bytes₁, fun _ => rfl⟩

/-- A file that is seen through the cache after a reboot. -/
theorem storedFile_cache_128 (buf : List UInt8) (short : buf.length ≤ 4000000) : ∃ (img : Disk) (s₀ v : FsState Cache) (t' : FsState Disk) (i : Nat),
    mkfs 128 = some img ∧ swiftfs2Mount.run (FsState.boot (Cache.boot img) fun _ => true) = some (0, s₀) ∧ ReachBoot (Checked Careful) s₀ v ∧
    (pathWalk filePath.bytes).run (viewed v) = some (some i, t') ∧ isFile (inodeAt (viewed v) i) = true ∧ fileContents (viewed v) i = buf ∧
    ∀ k, (v.fds k).inode = 0 := by
  obtain ⟨img, s₀, s, i, fd, X, made, mounted, reach, file, ⟨W, E, rep, consistent, roomy, avail⟩, shown⟩ := emptyFile_cache_128
  obtain ⟨⟨L, stands⟩, -, V, D, vol⟩ := held_viewed (by decide) made mounted reach
  obtain ⟨r, t, v, stored⟩ := file.stored vol stands shown buf
  obtain ⟨-, V', D', vol', leads, bytes, free⟩ := stored.rebooted file vol stands
  obtain ⟨-, written⟩ := stored.write.2.2.viewed stored.write.1 stands stored.written
  have descriptor : W.fds (fd : Int).toNat = ⟨i, 0, oCreat ||| oRdwr, false⟩ := by
    rw [Int.toNat_natCast, ← rep.fds, file.slot]
  have pos : (W.fds (fd : Int).toNat).pos = 0 := by rw [descriptor]
  have writable : (W.fds (fd : Int).toNat).flags ≠ oRdonly := by
    rw [descriptor]
    change oCreat ||| oRdwr ≠ oRdonly
    decide
  have value : r.value = buf.length := by
    have opened : fdOpen W.fds fd = true := by
      have nonzero := file.nonzero
      have upper := file.upper
      unfold fdOpen
      rw [descriptor]
      simp only [Bool.and_eq_true, decide_eq_true_eq, bne_iff_ne]
      exact ⟨⟨Int.natCast_nonneg _, by omega⟩, nonzero⟩
    obtain ⟨d, s₂, complete, whole⟩ : ∃ d s₂, (swiftfs2Write fd buf).run (viewed s) = some (d, s₂) ∧ d = buf.length := by
      have limit : (W.fds (fd : Int).toNat).pos + buf.length ≤ 1036 * 4096 := by omega
      have room : 2 * (((W.fds (fd : Int).toNat).pos + buf.length + 4095) / 4096 - (W.fds (fd : Int).toNat).pos / 4096) ≤ W.avail := by omega
      obtain ⟨d, s₂, -, run, -, whole⟩ := runs_swiftfs2Write_room consistent.own (consistent.fds _) opened writable roomy limit room (viewed s) rep
      exact ⟨d, s₂, run, whole⟩
    obtain ⟨d', s₃, call, rest⟩ := run_bind_eq_some.mp written
    obtain rfl := (Prod.mk.inj (Option.some.inj (complete.symm.trans call))).1
    cases rest
    exact whole
  have all : [(Call.write fd buf, r)].flatMap (bytesWritten fd) = buf := by
    rw [List.flatMap_singleton, bytesWritten, if_pos rfl, value, Int.toNat_natCast, List.take_length]
  rw [all] at bytes
  obtain ⟨hi, plain, -⟩ := files_bytes_some bytes
  obtain ⟨t', walk, -⟩ := run_pathWalk vol'.rep vol'.consistent filePath
  rw [leads] at walk
  obtain ⟨t₁, sync, mount⟩ := stored.mount
  refine ⟨img, s₀, v, t', i, made, mounted, .reboot (.call reach ⟨stored.write.1, stored.write.2.1.1, stored.write.2.2⟩ stored.written) sync mount,
    walk, ?_, vol'.contents bytes, fun k => ?_⟩
  · rw [vol'.rep.inode i hi]
    exact plain
  · have none : v.fds k = V'.fds k := congrFun vol'.rep.fds k
    rw [none, free k]
    rfl

theorem storedFile_128 (buf : List UInt8) (short : buf.length ≤ 4000000) : ∃ img s₀ v t' i, mkfs 128 = some img ∧
    swiftfs2Mount.run (FsState.boot img fun _ => true) = some (0, s₀) ∧ ReachBoot Careful s₀ v ∧
    (pathWalk filePath.bytes).run v = some (some i, t') ∧ isFile (inodeAt v i) = true ∧ fileContents v i = buf ∧
    ∀ k, (v.fds k).inode = 0 := by
  obtain ⟨img, s₀, v, t', i, made, mounted, reach, rest⟩ := storedFile_cache_128 buf short
  exact ⟨img, viewed s₀, viewed v, t', i, made, (mounted_viewed mounted).2, (held_viewed (by decide) made mounted reach).2.1, rest⟩

end Stored

end SwiftBSD.Proof.Fs
