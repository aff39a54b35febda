import SwiftBSD.Proof.Fs.AccessModes
import SwiftBSD.Proof.Fs.ReadEnd
import SwiftBSD.Proof.Vfs.Cursors

namespace SwiftBSD.Proof.Vfs
open Lib SwiftBSD.Fs SwiftBSD.Vfs SwiftBSD.Proof.Fs

variable {s t u : VfsState Disk} {V V' : Vol} {R : Nat → Prop} {fd : Int} {i file : Nat}

/-- The largest size of a file: 12 direct blocks and 1024 indirect ones. -/
def maxSize : Nat := 1036 * 4096

/-- A volume on which no block belongs to two files. -/
def Owned (s : FsState Disk) : Prop := ∃ V R, Rep s V ∧ Own R V ∧ ∀ fd, (V.fds fd).inode < V.inodes

/-- The position a slot would have after a `vfs_lseek`. -/
def seekTo (pos offset : UInt64) (whence : Int) : Option UInt64 :=
  if whence = 0 then some offset else if whence = 1 then some (pos + offset) else none

def Honoured (s : VfsState Disk) (i file : Nat) : SlotCall → Prop
  | .lseek _ offset whence => ∃ r u, (vfsLseek i offset whence).run s = some (r, u) ∧
      (r = -1 → (u.fds i).pos = (s.fds i).pos) ∧
      (r ≠ -1 → seekTo (s.fds i).pos offset whence = some (u.fds i).pos)
  | .read _ sz => (s.fs.fds (s.fds i).priv).flags ≠ oWronly → ∃ r bytes u, (vfsRead i sz).run s = some (.done r bytes, u) ∧
      ReadsWithin s.fs.dev.block (inodeAt s.fs file) (s.fds i).pos.toNat sz.toNat r bytes (u.fds i).pos.toNat ∧
      (bytes.length < min sz.toNat ((inodeAt s.fs file).size.toNat - (s.fds i).pos.toNat) →
        fileBlock s.fs.dev.block (inodeAt s.fs file) (((s.fds i).pos.toNat + bytes.length) / 4096) = 0)
  | .write _ buf => ∃ r u, (vfsWrite i buf).run s = some (.done r [], u) ∧
      (maxSize ≤ (s.fds i).pos.toNat → fileContents s.fs file <+: fileContents u.fs file)
  | _ => True

/-- When it does so: the position is one of 32 bits, or its low half leads to no byte of the file, and what `vfs_lseek` returns
does not look like a failure. -/
def Fits (s : VfsState Disk) (i file : Nat) : SlotCall → Prop
  | .lseek _ offset whence => ∀ pos, seekTo (s.fds i).pos offset whence = some pos →
      pos.toNat % 2 ^ 32 ≠ 2 ^ 32 - 1 ∨ pos = (s.fds i).pos
  | .read _ sz =>
      if (s.fds i).pos.toNat < 2 ^ 32 then
        (inodeAt s.fs file).size.toNat ≤ (s.fds i).pos.toNat ∨ (s.fds i).pos.toNat + sz.toNat < 2 ^ 32 ∨
          ∃ k, (s.fds i).pos.toNat ≤ k ∧ k ≤ (inodeAt s.fs file).size.toNat ∧ fileBlock s.fs.dev.block (inodeAt s.fs file) (k / 4096) = 0
      else
        (inodeAt s.fs file).size.toNat ≤ (s.fds i).pos.toNat % 2 ^ 32 ∨ sz = 0 ∨
          fileBlock s.fs.dev.block (inodeAt s.fs file) ((s.fds i).pos.toNat % 2 ^ 32 / 4096) = 0
  | .write _ _ => (s.fds i).pos.toNat < 2 ^ 32 ∨ maxSize ≤ (s.fds i).pos.toNat % 2 ^ 32
  | _ => True

theorem liftFs_of_run {α : Type} {x : FsM Disk α} {a : α} {fs : FsState Disk} (run : x.run s.fs = some (a, fs)) :
    (liftFs x).run s = some (a, { s with fs }) := by
  unfold liftFs
  rw [run_bind_some (x := get) rfl, run]
  rfl

theorem Denotes.fdOpen (denotes : Denotes s i file) : SwiftBSD.Vfs.fdOpen s.fds i = true :=
  fdOpen_iff.mpr ⟨i, rfl, denotes.bound, denotes.used⟩

theorem Denotes.fsOpen (denotes : Denotes s i file) : SwiftBSD.Fs.fdOpen (seek s i).fds (s.fds i).priv = true := by
  have live : ((seek s i).fds (s.fds i).priv).inode ≠ 0 := by
    unfold seek setPos
    dsimp only
    rw [Function.update_self, denotes.inode]
    exact denotes.live
  have bound := denotes.descriptor
  unfold SwiftBSD.Fs.fdOpen
  simp only [Bool.and_eq_true, decide_eq_true_eq, bne_iff_ne, Int.toNat_natCast]
  exact ⟨⟨Int.natCast_nonneg _, by omega⟩, live⟩

theorem run_vfsRead {sz : UInt32} {r : Int} {bytes : List UInt8} {fs : FsState Disk} (denotes : Denotes s i file)
    (read : (swiftfs2Read (s.fds i).priv sz.toNat).run (seek s i) = some ((r, bytes), fs)) :
    (vfsRead i sz).run s = some (.done r bytes, moved s i r fs) := by
  have set : (liftFs (modify (setPos (s.fds i).priv (s.fds i).pos.toUInt32.toNat))).run s = some ((), { s with fs := seek s i }) := by
    rw [@liftFs_of_run s _ (modify _) _ (seek s i) (by rw [← seek_eq]; rfl)]
  have inner : (swRead (s.fds i).priv sz.toNat (s.fds i).pos).run s =
      some ((r, bytes, if 0 < r then .ofNat (fs.fds (s.fds i).priv).pos else (s.fds i).pos), { s with fs }) := by
    unfold swRead
    have lifted := liftFs_of_run (s := { s with fs := seek s i }) read
    rw [run_bind_some set, run_bind_some lifted]
    rfl
  have start : (vfsReadStart i sz).run s = some (.done r bytes, moved s i r fs) := by
    unfold vfsReadStart
    rw [run_bind_some (x := get) rfl, denotes.fdOpen, if_neg (by decide)]
    dsimp only
    rw [Int.toNat_natCast, denotes.ops]
    dsimp only
    rw [run_bind_some inner, ← denotes.ops]
    rfl
  unfold vfsRead
  rw [run_bind_some start, runPending_done]

theorem run_vfsWrite {buf : List UInt8} {r : Int} {fs : FsState Disk} (denotes : Denotes s i file)
    (write : (swiftfs2Write (s.fds i).priv buf).run (seek s i) = some (r, fs)) :
    (vfsWrite i buf).run s = some (.done r [], moved s i r fs) := by
  have set : (liftFs (modify (setPos (s.fds i).priv (s.fds i).pos.toUInt32.toNat))).run s = some ((), { s with fs := seek s i }) := by
    rw [@liftFs_of_run s _ (modify _) _ (seek s i) (by rw [← seek_eq]; rfl)]
  have inner : (swWrite (s.fds i).priv buf (s.fds i).pos).run s =
      some ((r, if 0 < r then .ofNat (fs.fds (s.fds i).priv).pos else (s.fds i).pos), { s with fs }) := by
    unfold swWrite
    have lifted := liftFs_of_run (s := { s with fs := seek s i }) write
    rw [run_bind_some set, run_bind_some lifted]
    rfl
  have start : (vfsWriteStart i buf).run s = some (.done r [], moved s i r fs) := by
    unfold vfsWriteStart
    rw [run_bind_some (x := get) rfl, denotes.fdOpen, if_neg (by decide)]
    dsimp only
    rw [Int.toNat_natCast, denotes.ops]
    dsimp only
    rw [run_bind_some inner, ← denotes.ops]
    rfl
  unfold vfsWrite
  rw [run_bind_some start, runPending_done]

theorem Owned.seek (owned : Owned s.fs) (i : Nat) : ∃ V R, Rep (seek s i) V ∧ Own R V ∧ ∀ fd, (V.fds fd).inode < V.inodes := by
  obtain ⟨V, R, rep, own, inside⟩ := owned
  refine ⟨{ V with fds := (SwiftBSD.Proof.Vfs.seek s i).fds }, R, rep.setFd _, ⟨own.owns, own.reserved⟩, fun fd => ?_⟩
  change ((SwiftBSD.Proof.Vfs.seek s i).fds fd).inode < V.inodes
  unfold SwiftBSD.Proof.Vfs.seek setPos
  dsimp only
  rw [rep.fds, Function.update_apply]
  split
  · exact inside _
  · exact inside fd

theorem owned_setFd {fd : Nat} {f : Fd} {s : FsState Disk} (rep : Rep s (V.setFd fd f)) (own : Own R V) (inside : ∀ fd, (V.fds fd).inode < V.inodes)
    (inode : f.inode < V.inodes) : Owned s := by
  refine ⟨_, R, rep, ⟨own.owns, own.reserved⟩, fun k => ?_⟩
  change (Function.update V.fds fd f k).inode < V.inodes
  rw [Function.update_apply]
  split
  · exact inode
  · exact inside k

theorem read_owned (owned : Owned s.fs) (i : Nat) (fd : Int) (n : Nat) :
    ∃ r fs, (swiftfs2Read fd n).run (seek s i) = some (r, fs) ∧ Owned fs := by
  obtain ⟨V, R, rep, own, inside⟩ := owned.seek i
  obtain ⟨r, fs, V', run, rep', post⟩ := runs_swiftfs2Read own n (inside _) _ rep
  refine ⟨r, fs, run, ?_⟩
  cases post with
  | refused => exact ⟨_, R, rep', own, inside⟩
  | ended => exact ⟨_, R, rep', own, inside⟩
  | bytes descriptor => exact owned_setFd rep' own inside (by rw [descriptor]; exact inside _)

theorem write_owned (owned : Owned s.fs) (i : Nat) (fd : Int) (buf : List UInt8) :
    ∃ r fs, (swiftfs2Write fd buf).run (seek s i) = some (r, fs) ∧ Owned fs := by
  obtain ⟨V, R, rep, own, inside⟩ := owned.seek i
  obtain ⟨r, fs, V', run, rep', post⟩ := runs_swiftfs2Write own buf (inside _) _ rep
  refine ⟨r, fs, run, ?_⟩
  cases post with
  | refused => exact ⟨_, R, rep', own, inside⟩
  | @wrote f W x' done _ descriptor _ wrote =>
      have frame : W.fds = V.fds := by rw [wrote.ext.frame]
      have inodes : W.inodes = V.inodes := wrote.ext.inodes
      have inode : f.inode < W.inodes := by rw [inodes, descriptor]; exact inside _
      have own' := wrote.own.setInode_of_slot inode (slot_grow W.data x' ((f.pos + done) % 2 ^ 32))
      refine owned_setFd rep' own' (fun k => ?_) inode
      change (W.fds k).inode < W.inodes
      rw [frame, inodes]
      exact inside k

theorem seek_pos (s : VfsState Disk) (i : Nat) : ((seek s i).fds (s.fds i).priv).pos = (s.fds i).pos.toNat % 2 ^ 32 := by
  unfold seek setPos
  dsimp only
  rw [Function.update_self]

theorem Denotes.seek_inode (denotes : Denotes s i file) : ((seek s i).fds (s.fds i).priv).inode = file := by
  unfold seek setPos
  dsimp only
  rw [Function.update_self, denotes.inode]

theorem seek_flags (s : VfsState Disk) (i : Nat) : ((seek s i).fds (s.fds i).priv).flags = (s.fs.fds (s.fds i).priv).flags := by
  unfold seek setPos
  dsimp only
  rw [Function.update_self]

theorem moved_pos (s : VfsState Disk) (i : Nat) (r : Int) (fs : FsState Disk) :
    ((moved s i r fs).fds i).pos = if 0 < r then .ofNat (fs.fds (s.fds i).priv).pos else (s.fds i).pos := by
  unfold moved
  dsimp only
  rw [Function.update_self]

section Read
variable {sz : UInt32} (owned : Owned s.fs) (denotes : Denotes s i file)
include owned denotes

theorem Denotes.inodeRead : (inodeRead ((seek s i).fds (s.fds i).priv).inode).run (seek s i) = some (inodeAt s.fs file, seek s i) := by
  obtain ⟨V, R, rep, -, inside⟩ := owned.seek i
  have bound : file < V.inodes := by
    have small := inside (s.fds i).priv
    rw [← rep.fds, denotes.seek_inode] at small
    exact small
  rw [denotes.seek_inode, run_inodeRead rep bound, ← rep.inode file bound]
  rfl

theorem read_ended (readable : (s.fs.fds (s.fds i).priv).flags ≠ oWronly)
    (ended : (inodeAt s.fs file).size.toNat ≤ (s.fds i).pos.toNat % 2 ^ 32) :
    (swiftfs2Read (s.fds i).priv sz.toNat).run (seek s i) = some ((0, []), seek s i) := by
  unfold swiftfs2Read
  rw [run_bind_some (x := get) (s := seek s i) rfl, denotes.fsOpen, if_neg (by decide)]
  dsimp only
  rw [Int.toNat_natCast, seek_flags, if_neg readable, run_bind_some (denotes.inodeRead owned), seek_pos, if_pos ended]
  rfl

theorem read_honoured (fits : Fits s i file (.read i sz)) : Honoured s i file (.read i sz) := by
  intro readable
  have word : (s.fds i).pos.toNat % 2 ^ 32 < 2 ^ 32 := Nat.mod_lt _ (by decide)
  have opened := denotes.fsOpen
  have readable' : ((seek s i).fds ((s.fds i).priv : Int).toNat).flags ≠ oWronly := by
    rw [Int.toNat_natCast, seek_flags]
    exact readable
  have inode := denotes.inodeRead owned
  have nothing {r : Int} {fs : FsState Disk} (run : (swiftfs2Read (s.fds i).priv sz.toNat).run (seek s i) = some ((r, []), fs)) (zero : r = 0)
      (none_ : (inodeAt s.fs file).size.toNat ≤ (s.fds i).pos.toNat ∨ sz.toNat = 0 ∨
        fileBlock s.fs.dev.block (inodeAt s.fs file) ((s.fds i).pos.toNat / 4096) = 0) :
      ∃ r bytes u, (vfsRead i sz).run s = some (.done r bytes, u) ∧
        ReadsWithin s.fs.dev.block (inodeAt s.fs file) (s.fds i).pos.toNat sz.toNat r bytes (u.fds i).pos.toNat ∧
        (bytes.length < min sz.toNat ((inodeAt s.fs file).size.toNat - (s.fds i).pos.toNat) →
          fileBlock s.fs.dev.block (inodeAt s.fs file) (((s.fds i).pos.toNat + bytes.length) / 4096) = 0) := by
    subst zero
    refine ⟨_, _, _, run_vfsRead denotes run, ⟨Nat.zero_le _, nofun, rfl, ?_⟩, fun more => ?_⟩
    · rw [moved_pos, if_neg (by decide)]
      rfl
    · rw [List.length_nil] at more ⊢
      rcases none_ with ended | empty | hole
      · omega
      · omega
      · exact hole
  by_cases ended : (inodeAt s.fs file).size.toNat ≤ (s.fds i).pos.toNat % 2 ^ 32
  · exact nothing (read_ended owned denotes readable ended) rfl (.inl (by omega))
  have pos : ((seek s i).fds ((s.fds i).priv : Int).toNat).pos = (s.fds i).pos.toNat % 2 ^ 32 := by rw [Int.toNat_natCast, seek_pos]
  obtain ⟨d, t, read⟩ := @readRun (seek s i) (inodeAt s.fs file) (s.fds i).priv sz.toNat opened readable' inode (by rw [pos]; omega)
  have room := read.no_wrap (by rw [pos]; exact word)
  obtain ⟨toRead, length, bound, stop⟩ := read.stop
  have run := read.run
  have solid := read.solid
  rw [pos] at room length stop
  simp only [pos] at solid
  have fits : if (s.fds i).pos.toNat < 2 ^ 32 then _ else _ := fits
  split at fits
  · next small =>
      have same : (s.fds i).pos.toNat % 2 ^ 32 = (s.fds i).pos.toNat := Nat.mod_eq_of_lt small
      rw [same] at room length stop pos
      rw [same] at ended
      simp only [same] at solid
      -- the length of the request is cut down, or there is a hole before the end
      have count : d ≤ min sz.toNat ((inodeAt s.fs file).size.toNat - (s.fds i).pos.toNat) := by
        rcases fits with past | short | ⟨k, lower, upper, hole⟩
        · omega
        · rw [Nat.mod_eq_of_lt short] at length
          split at length
          · rw [Nat.mod_eq_of_lt (by omega)] at length
            omega
          · omega
        · have shortened : d ≤ sz.toNat := by
            split at length
            · omega
            · omega
          refine le_min shortened ?_
          by_contra far
          have present := solid (k - (s.fds i).pos.toNat) (by omega)
          rw [show (s.fds i).pos.toNat + (k - (s.fds i).pos.toNat) = k by omega, Nat.mod_eq_of_lt (by omega)] at present
          exact present hole
      clear fits
      have word := sz.toNat_lt
      have within := read.within (by rw [pos]; exact small) (by rw [pos]; exact count) (by rw [pos]; omega)
      rw [pos] at within
      refine ⟨_, _, _, run_vfsRead denotes run, ?_, fun more => ?_⟩
      · rw [pos]
        refine ⟨within.count, within.stored, within.returned, ?_⟩
        have advanced := within.advanced
        rw [List.length_map, List.length_range] at advanced ⊢
        rw [moved_pos]
        split
        · rw [Int.toNat_natCast] at advanced
          rw [advanced, UInt64.toNat_ofNat_of_lt']
          change _ < 2 ^ 64
          omega
        · next zero => omega
      · rw [List.length_map, List.length_range] at more ⊢
        have hole := stop (by split at length <;> omega)
        rwa [Nat.mod_eq_of_lt (by omega)] at hole
  · next large =>
      have zero : d = 0 := by
        rcases fits with past | empty | hole
        · exact absurd past ended
        · rw [empty] at length
          have nothing_ : (0 : UInt32).toNat = 0 := rfl
          rw [nothing_, Nat.add_zero, Nat.mod_mod, if_neg (by omega)] at length
          omega
        · by_contra some_
          have present := solid 0 (by omega)
          rw [Nat.add_zero, Nat.mod_mod] at present
          exact present hole
      subst zero
      refine nothing run rfl (.inr (.inr (fileBlock_of_ge ?_)))
      omega

end Read

theorem run_writeLoop_far {pos n : Nat} {buf : List UInt8} {x : Inode} {s : FsState Disk} (far : maxSize ≤ pos % 2 ^ 32) :
    (writeLoop pos buf n 0 x).run s = some ((0, x), s) := by
  cases n with
  | zero => rfl
  | succ n =>
      have none_ : (bmapRead x ((pos + 0) % 2 ^ 32 / 4096) true).run s = some ((0, x), s) := by
        unfold maxSize at far
        unfold bmapRead
        rw [dif_neg (by omega), if_neg (by omega)]
        rfl
      unfold writeLoop
      split
      · rfl
      · dsimp only
        rw [run_bind_some none_]
        rfl

theorem contents_grow_prefix (data : Nat → Block) (x : Inode) {pos : Nat} (word : pos < 2 ^ 32) :
    Fs.contents data x <+: Fs.contents data (x.grow pos) := by
  have larger : x.size.toNat ≤ (x.grow pos).size.toNat := by
    unfold Inode.grow
    dsimp only
    split
    · rw [UInt64.toNat_ofNat_of_lt' (by change pos < 2 ^ 64; omega)]
      omega
    · exact Nat.le_refl _
  obtain ⟨k, length⟩ := Nat.exists_eq_add_of_le larger
  have same : byteAt data (x.grow pos) = byteAt data x := rfl
  unfold Fs.contents
  rw [length, same, List.range_add, List.map_append]
  exact List.prefix_append _ _

theorem runs_write_far (own : Own R V) (inside : (V.fds fd.toNat).inode < V.inodes) (buf : List UInt8)
    (far : maxSize ≤ (V.fds fd.toNat).pos % 2 ^ 32) :
    Runs Rep (swiftfs2Write fd buf) V fun _ V' => ∃ R, Own R V' ∧ V'.inodes = V.inodes ∧ ∀ j,
      Fs.contents V.data (V.inode j) <+: Fs.contents V'.data (V'.inode j) := by
  unfold swiftfs2Write
  refine .bind runs_get ?_
  rintro s V ⟨rfl, rep⟩
  rw [rep.fds]
  split
  · exact .pure ⟨R, own, rfl, fun _ => List.prefix_rfl⟩
  dsimp only
  split
  · exact .pure ⟨R, own, rfl, fun _ => List.prefix_rfl⟩
  refine .bind (runs_inodeRead inside) ?_
  rintro _ V ⟨rfl, rfl⟩
  have loop : Runs Rep (writeLoop (V.fds fd.toNat).pos buf buf.length 0 (V.inode (V.fds fd.toNat).inode)) V fun r V' =>
      r = (0, V.inode (V.fds fd.toNat).inode) ∧ V' = V :=
    fun s rep => ⟨_, s, V, run_writeLoop_far far, rep, rfl, rfl⟩
  refine .bind loop ?_
  rintro _ V ⟨rfl, rfl⟩
  dsimp only
  refine .bind (runs_inodeWrite inside _) ?_
  rintro _ _ rfl
  refine .bind (runs_setPos _ _) ?_
  rintro _ _ rfl
  have own' : Own R (V.setInode (V.fds fd.toNat).inode (V.inode (V.fds fd.toNat).inode)) := by rwa [setInode_self]
  have grown := own'.setInode_of_slot inside (slot_grow V.data _ (((V.fds fd.toNat).pos + 0) % 2 ^ 32))
  refine .pure ⟨R, ⟨grown.owns, grown.reserved⟩, rfl, fun j => ?_⟩
  change _ <+: Fs.contents V.data (Function.update V.inode _ _ j)
  rw [Function.update_apply]
  split
  · next here =>
      rw [here]
      exact contents_grow_prefix V.data _ (Nat.mod_lt _ (by decide))
  · exact List.prefix_rfl

theorem write_honoured {buf : List UInt8} (owned : Owned s.fs) (denotes : Denotes s i file) (fits : Fits s i file (.write i buf)) :
    Honoured s i file (.write i buf) := by
  obtain ⟨r, fs, run, -⟩ := write_owned owned i (s.fds i).priv buf
  refine ⟨r, _, run_vfsWrite denotes run, fun beyond => ?_⟩
  obtain ⟨V, R, rep, own, inside⟩ := owned.seek i
  have far : maxSize ≤ (V.fds ((s.fds i).priv : Int).toNat).pos % 2 ^ 32 := by
    rw [Int.toNat_natCast, ← rep.fds, seek_pos, Nat.mod_mod]
    rcases fits with word | far
    · rwa [Nat.mod_eq_of_lt word]
    · exact far
  obtain ⟨r', fs', V', run', rep', R', own', inodes, same⟩ := runs_write_far own (inside _) buf far _ rep
  obtain ⟨rfl, rfl⟩ := Prod.mk.inj (Option.some.inj (run.symm.trans run'))
  have bound : file < V.inodes := by
    have small := inside (s.fds i).priv
    rw [← rep.fds, denotes.seek_inode] at small
    exact small
  have before : fileContents s.fs file = Fs.contents V.data (V.inode file) := rep.fileContents own bound
  have after : fileContents fs file = Fs.contents V'.data (V'.inode file) := rep'.fileContents own' (by rw [inodes]; exact bound)
  change fileContents s.fs file <+: fileContents fs file
  rw [before, after]
  exact same file

theorem run_vfsLseek (denotes : Denotes s i file) (offset : UInt64) (whence : Int) : (vfsLseek i offset whence).run s =
    match seekTo (s.fds i).pos offset whence with
    | none => some (-1, s)
    | some pos => some (toInt pos.toUInt32, { s with fds := Function.update s.fds i { s.fds i with pos } }) := by
  unfold vfsLseek
  rw [run_bind_some (x := get) rfl, denotes.fdOpen, if_neg (by decide)]
  dsimp only
  rw [Int.toNat_natCast]
  change StateT.run (match seekTo (s.fds i).pos offset whence with | none => _ | some pos => _) s = _
  cases seekTo (s.fds i).pos offset whence with
  | none => rfl
  | some pos => rfl

theorem toInt_eq_neg_one {v : UInt32} : toInt v = -1 ↔ v.toNat = 2 ^ 32 - 1 := by
  have bound := v.toNat_lt
  unfold toInt
  rw [Int.bmod_def]
  split <;> omega

theorem lseek_honoured_iff (denotes : Denotes s i file) (offset : UInt64) (whence : Int) :
    Honoured s i file (.lseek i offset whence) ↔ Fits s i file (.lseek i offset whence) := by
  have run := run_vfsLseek denotes offset whence
  unfold Honoured Fits
  dsimp only
  cases target : seekTo (s.fds i).pos offset whence with
  | none =>
      rw [target] at run
      exact iff_of_true ⟨_, _, run, fun _ => rfl, fun wrong => (wrong rfl).elim⟩ nofun
  | some pos =>
      rw [target] at run
      dsimp only at run
      have now : (Function.update s.fds i { s.fds i with pos } i).pos = pos := by rw [Function.update_self]
      have word : pos.toUInt32.toNat = pos.toNat % 2 ^ 32 := UInt64.toNat_toUInt32 _
      constructor
      · rintro ⟨r, u, run', failed, -⟩ pos' same
        obtain rfl := Option.some.inj same
        obtain ⟨rfl, rfl⟩ := Prod.mk.inj (Option.some.inj (run.symm.trans run'))
        by_cases ones : pos.toNat % 2 ^ 32 = 2 ^ 32 - 1
        · exact .inr (now.symm.trans (failed (toInt_eq_neg_one.mpr (by rw [word]; exact ones))))
        · exact .inl ones
      · intro fits
        refine ⟨_, _, run, fun failed => ?_, fun _ => congrArg some now.symm⟩
        have ones := toInt_eq_neg_one.mp failed
        rw [word] at ones
        exact now.trans ((fits pos rfl).resolve_left fun other => other ones)

/-- A call of `vfs_lseek`, `vfs_read` or `vfs_write` on slot `i`. -/
inductive OnSlot (i : Nat) : SlotCall → Prop
  | lseek (offset : UInt64) (whence : Int) : OnSlot i (.lseek i offset whence)
  | read (sz : UInt32) : OnSlot i (.read i sz)
  | write (buf : List UInt8) : OnSlot i (.write i buf)

/-- The states a run of such calls on descriptors of the file system can reach when every call is `ok` in the state it is made
in. -/
inductive SeekRun (ok : VfsState Disk → Nat → Nat → SlotCall → Prop) (s : VfsState Disk) : VfsState Disk → Prop
  | start : SeekRun ok s s
  | step {t u : VfsState Disk} {i file : Nat} {c : SlotCall} {p : Progress} (before : SeekRun ok s t) (denotes : Denotes t i file)
      (on : OnSlot i c) (admitted : ok t i file c) (run : c.exec.run t = some (p, u)) : SeekRun ok s u

theorem owned_step {c : SlotCall} {p : Progress} (owned : Owned s.fs) (denotes : Denotes s i file) (on : OnSlot i c)
    (run : c.exec.run s = some (p, t)) : Owned t.fs := by
  cases on with
  | lseek offset whence =>
      obtain ⟨r, u, sought, run⟩ := run_bind_eq_some.mp run
      cases run
      rw [run_vfsLseek denotes] at sought
      split at sought
      · obtain ⟨-, rfl⟩ := Prod.mk.inj (Option.some.inj sought)
        exact owned
      · obtain ⟨-, rfl⟩ := Prod.mk.inj (Option.some.inj sought)
        exact owned
  | read sz =>
      obtain ⟨⟨r, bytes⟩, fs, inner, owned'⟩ := read_owned owned i (s.fds i).priv sz.toNat
      obtain ⟨-, rfl⟩ := Prod.mk.inj (Option.some.inj ((run_vfsRead denotes inner).symm.trans run))
      exact owned'
  | write buf =>
      obtain ⟨r, fs, inner, owned'⟩ := write_owned owned i (s.fds i).priv buf
      obtain ⟨-, rfl⟩ := Prod.mk.inj (Option.some.inj ((run_vfsWrite denotes inner).symm.trans run))
      exact owned'

theorem SeekRun.owned {ok : VfsState Disk → Nat → Nat → SlotCall → Prop} (reach : SeekRun ok s t) (owned : Owned s.fs) : Owned t.fs := by
  induction reach with
  | start => exact owned
  | step before denotes on admitted run ih => exact owned_step ih denotes on run

/-- In a run whose calls all fit, each call honours its position. -/
theorem positions_honoured {c : SlotCall} (owned : Owned s.fs) (reach : SeekRun Fits s t) (denotes : Denotes t i file) (on : OnSlot i c)
    (fits : Fits t i file c) : Honoured t i file c := by
  have owned := reach.owned owned
  cases on with
  | lseek offset whence => exact (lseek_honoured_iff denotes offset whence).mpr fits
  | read sz => exact read_honoured owned denotes fits
  | write buf => exact write_honoured owned denotes fits

/-- A process with descriptor `d` of the file system in slot 3. -/
def oneSlot (fs : FsState Disk) (d : Nat) : VfsState Disk :=
  { freshFiles with fs, fds := Function.update freshFiles.fds 3 ⟨some .swiftfs, d, 0, 0, 1⟩ }

theorem oneSlot_denotes {fs : FsState Disk} {d : Nat} (bound : d < 64) (inode : (fs.fds d).inode = file) (live : file ≠ 0) :
    Denotes (oneSlot fs d) 3 file := by
  have slot : (oneSlot fs d).fds 3 = ⟨some .swiftfs, d, 0, 0, 1⟩ := by
    unfold oneSlot
    dsimp only
    rw [Function.update_self]
  exact ⟨by decide, by rw [slot]; exact one_ne_zero, by rw [slot], by rw [slot]; exact bound, by rw [slot]; exact inode, live⟩

theorem oneSlot_pos (fs : FsState Disk) (d : Nat) : ((oneSlot fs d).fds 3).pos = 0 := by
  unfold oneSlot
  dsimp only
  rw [Function.update_self]

theorem newFile_slot {fs : FsState Disk} {V : Vol} {D : Nat → List (List Rec)} {ino fd : Nat} (file : NewFile fs V D ino fd) :
    Owned (oneSlot fs fd).fs ∧ Denotes (oneSlot fs fd) 3 ino :=
  ⟨⟨V, _, file.rep, file.consistent.own, file.consistent.fds⟩,
    oneSlot_denotes file.upper (by rw [file.rep.fds, file.descriptor]) file.nonzero⟩

theorem exec_lseek {offset : UInt64} {whence r : Int} (run : (vfsLseek i offset whence).run s = some (r, t)) :
    (SlotCall.lseek i offset whence).exec.run s = some (.done r [], t) := run_bind_some run

theorem positions_honoured_sought : ∃ s t ino, Volume s.fs ∧ Denotes s 3 ino ∧ SeekRun Fits s t ∧ (t.fds 3).pos = 5 ∧
    Honoured t 3 ino (.write 3 [0x41, 0x42]) ∧ Honoured t 3 ino (.read 3 4) := by
  obtain ⟨img, s₀, fs, V, D, ino, fd, made, mounted, reach, file⟩ := newFile_128
  obtain ⟨owned, denotes⟩ := newFile_slot file
  have fits : Fits (oneSlot fs fd) 3 ino (.lseek 3 5 0) := fun pos target => by
    obtain rfl := Option.some.inj target
    exact .inl (by decide)
  have sought := run_vfsLseek denotes 5 0
  have target : seekTo ((oneSlot fs fd).fds 3).pos 5 0 = some 5 := rfl
  rw [target] at sought
  dsimp only at sought
  obtain ⟨t, run, denotes', pos⟩ : ∃ t, SeekRun Fits (oneSlot fs fd) t ∧ Denotes t 3 ino ∧ (t.fds 3).pos = 5 := by
    refine ⟨_, SeekRun.start.step denotes (.lseek 5 0) fits (exec_lseek sought), ⟨by decide, ?_, ?_, ?_, ?_, denotes.live⟩, ?_⟩ <;>
      dsimp only <;> rw [Function.update_self]
    · exact denotes.used
    · exact denotes.ops
    · exact denotes.descriptor
    · exact denotes.inode
  have small : (t.fds 3).pos.toNat = 5 := by
    rw [pos]
    rfl
  refine ⟨_, t, ino, ⟨128, img, _, s₀, by decide, made, mounted, reach⟩, denotes, run, pos,
    positions_honoured owned run denotes' (.write [0x41, 0x42]) (.inl ?_), positions_honoured owned run denotes' (.read 4) ?_⟩
  · omega
  · unfold Fits
    dsimp only
    rw [if_pos (by omega), small]
    exact .inr (.inl (by decide))

/-- `vfs_lseek` to 4294967295 returns -1 and moves the position. -/
theorem failed_lseek_moves : ∃ s ino, Volume s.fs ∧ Denotes s 3 ino ∧ (s.fds 3).pos = 0 ∧
    (∃ u, (vfsLseek 3 0xFFFFFFFF 0).run s = some (-1, u) ∧ (u.fds 3).pos = 0xFFFFFFFF) ∧ ¬Honoured s 3 ino (.lseek 3 0xFFFFFFFF 0) := by
  obtain ⟨img, s₀, fs, V, D, ino, fd, made, mounted, reach, file⟩ := newFile_128
  obtain ⟨-, denotes⟩ := newFile_slot file
  refine ⟨_, ino, ⟨128, img, _, s₀, by decide, made, mounted, reach⟩, denotes, oneSlot_pos fs fd, ?_, fun honoured => ?_⟩
  · have run := run_vfsLseek denotes 0xFFFFFFFF 0
    have target : seekTo ((oneSlot fs fd).fds 3).pos 0xFFFFFFFF 0 = some 0xFFFFFFFF := rfl
    have failure_ : toInt (UInt64.toUInt32 0xFFFFFFFF) = -1 := toInt_eq_neg_one.mpr (by decide)
    rw [target] at run
    dsimp only at run
    rw [failure_] at run
    refine ⟨_, run, ?_⟩
    dsimp only
    rw [Function.update_self]
  · have fits := (lseek_honoured_iff denotes 0xFFFFFFFF 0).mp honoured
    rcases fits 0xFFFFFFFF rfl with other | same
    · exact absurd rfl other
    · rw [oneSlot_pos] at same
      exact absurd same (by decide)

end SwiftBSD.Proof.Vfs
