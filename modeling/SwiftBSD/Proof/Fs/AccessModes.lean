import SwiftBSD.Proof.Fs.Descriptors
import SwiftBSD.Proof.Fs.NewFile
import SwiftBSD.Proof.Fs.Room
import SwiftBSD.Proof.Fs.Storage

namespace SwiftBSD.Proof.Fs
open Lib SwiftBSD.Fs

variable {s t u : FsState Disk} {path : CString} {flags : UInt32} {i : Nat} {fd r : Int} {V : Vol} {D : Nat → List (List Rec)}
  {R : Nat → Prop}

inductive Access
  | read (size : Nat)
  | write (buf : List UInt8)

def Access.run (fd : Int) : Access → FsM Disk Unit
  | .read size => do let _ ← swiftfs2Read fd size
  | .write buf => do let _ ← swiftfs2Write fd buf

def accesses (fd : Int) : List Access → FsM Disk Unit
  | [] => return
  | a :: as => do
      a.run fd
      accesses fd as

/-- The flags or the mode of the file say that it is not to be written. -/
def Protected (s : FsState Disk) (i : Nat) (flags : UInt32) : Prop := flags &&& 3 = oRdonly ∨ (inodeAt s i).mode &&& sIwusr = 0

/-- An open with these flags, and every sequence of reads and writes after it, keeps a protected file as it was and a file opened for
writing only unread. -/
structure Enforced (s : FsState Disk) (path : CString) (flags : UInt32) : Prop where
  opened : ∀ i, (pathWalk path.bytes).run s = some (some i, s) → Protected s i flags → ∀ r t,
    (swiftfs2Open path.bytes flags).run s = some (r, t) → fileContents t i = fileContents s i
  accessed : ∀ i, (pathWalk path.bytes).run s = some (some i, s) → Protected s i flags → ∀ r t,
    (swiftfs2Open path.bytes flags).run s = some (r, t) → 0 ≤ r →
    ∀ as u, (accesses r as).run t = some ((), u) → fileContents u i = fileContents s i
  hidden : flags &&& 3 = oWronly → ∀ r t, (swiftfs2Open path.bytes flags).run s = some (r, t) → 0 ≤ r →
    ∀ as u, (accesses r as).run t = some ((), u) → ∀ size, (swiftfs2Read r size).run u = some ((-1, []), u)

theorem and_and_of_and {a b c : UInt32} (h : a &&& 3 = b) (sub : 3 &&& c = c) : a &&& c = b &&& c := by
  rw [← h, UInt32.and_assoc, sub]

theorem rdwr_not_rdonly (rdwr : flags &&& oRdwr ≠ 0) : flags &&& 3 ≠ oRdonly := by
  intro low
  exact rdwr (and_and_of_and low (by decide))

theorem rdwr_not_wronly (rdwr : flags &&& oRdwr ≠ 0) : flags &&& 3 ≠ oWronly := by
  intro low
  exact rdwr ((and_and_of_and low (by decide)).trans (by decide))

theorem low_bits (rdwr : flags &&& oRdwr = 0) : flags &&& 3 = oRdonly ∨ flags &&& 3 = oWronly := by
  have bit : flags &&& 2 = 0 := rdwr
  rw [← UInt32.toNat_inj] at bit
  rw [← UInt32.toNat_inj, ← UInt32.toNat_inj]
  have two : flags.toNat &&& 2 = 0 := bit
  change flags.toNat &&& 3 = 0 ∨ flags.toNat &&& 3 = 1
  have three : flags.toNat &&& 3 = flags.toNat % 4 := Nat.and_two_pow_sub_one_eq_mod _ 2
  have high : (flags.toNat % 4) &&& 2 = 0 := by
    rw [← three, Nat.and_assoc]
    exact two
  have small : flags.toNat % 4 < 4 := Nat.mod_lt _ (by decide)
  rw [three]
  generalize flags.toNat % 4 = k at high small ⊢
  interval_cases k
  · exact .inl rfl
  · exact .inr rfl
  · exact absurd high (by decide)
  · exact absurd high (by decide)

def stored (s : FsState Disk) : Disk × Nat := (s.dev, s.nrGroups)

theorem fileContents_congr (same : stored t = stored s) (i : Nat) : fileContents t i = fileContents s i := by
  have dev : t.dev = s.dev := congrArg Prod.fst same
  have groups : t.nrGroups = s.nrGroups := congrArg Prod.snd same
  simp only [fileContents, inodeAt, dev, groups]

theorem keeps_stored_read (fd : Int) (size : Nat) : Keeps stored (swiftfs2Read fd size) := by
  have all {α : Type} {x : FsM Disk α} (keeps : KeepsAll x) : Keeps stored x := fun s a t run => congrArg stored (keeps s a t run)
  have loop (x : Inode) (pos toRead n done : Nat) (out : List UInt8) : KeepsAll (readLoop x pos toRead n done out : FsM Disk _) := by
    induction n generalizing done out with
    | zero => exact .pure _
    | succ n ih =>
        unfold readLoop
        split
        · exact .pure _
        refine .bind (keepsAll_bmapRead _ _) fun place => ?_
        dsimp only
        split
        · exact .pure _
        · exact .bind (keepsAll_cacheGet _) fun slot => .bind (keepsAll_load _) fun b => ih _ _
  unfold swiftfs2Read
  refine .bind .get fun s => ?_
  dsimp only
  split
  · exact .pure _
  split
  · exact .pure _
  refine .bind (all (keepsAll_inodeRead _)) fun x => ?_
  split
  · exact .pure _
  · refine .bind (all (loop _ _ _ _ _ _)) fun out => ?_
    exact .bind (.modify fun s => rfl) fun _ => .pure _

theorem keeps_fdFlags (fd : Int) (a : Access) : Keeps fdFlags (a.run fd) := by
  cases a with
  | read size => exact .bind (keeps_read fdFlags_congr fdFlags_setPos fd size) fun _ => .pure _
  | write buf => exact .bind (keeps_write fdFlags_congr fdFlags_setPos fd buf) fun _ => .pure _

theorem keeps_accesses (fd : Int) (as : List Access) : Keeps fdFlags (accesses fd as) := by
  induction as with
  | nil => exact .pure _
  | cons a as ih => exact .bind (keeps_fdFlags fd a) fun _ => ih

theorem swiftfs2Write_refused (readOnly : fdFlags s fd.toNat = oRdonly) (buf : List UInt8) : (swiftfs2Write fd buf).run s = some (-1, s) := by
  unfold swiftfs2Write
  rw [run_bind_some (StateT.run_get s)]
  split
  · rfl
  · have same : (s.fds fd.toNat).flags = oRdonly := readOnly
    dsimp only
    rw [if_pos same]
    rfl

theorem swiftfs2Read_refused (writeOnly : fdFlags s fd.toNat = oWronly) (size : Nat) :
    (swiftfs2Read fd size).run s = some ((-1, []), s) := by
  unfold swiftfs2Read
  rw [run_bind_some (StateT.run_get s)]
  split
  · rfl
  · have same : (s.fds fd.toNat).flags = oWronly := writeOnly
    dsimp only
    rw [if_pos same]
    rfl

theorem accesses_stored {as : List Access} (readOnly : fdFlags t fd.toNat = oRdonly) (run : (accesses fd as).run t = some ((), u)) :
    stored u = stored t := by
  induction as generalizing t with
  | nil =>
      cases run
      rfl
  | cons a as ih =>
      obtain ⟨_, t', first, rest⟩ := run_bind_eq_some.mp run
      have same : fdFlags t' = fdFlags t := keeps_fdFlags fd a t () t' first
      rw [ih (by rw [same]; exact readOnly) rest]
      cases a with
      | read size =>
          obtain ⟨r, _, read, done⟩ := run_bind_eq_some.mp first
          cases done
          exact keeps_stored_read fd size t r _ read
      | write buf =>
          obtain ⟨r, _, write, done⟩ := run_bind_eq_some.mp first
          rw [swiftfs2Write_refused readOnly] at write
          cases done
          cases write
          rfl

theorem open_flags (run : (swiftfs2Open path.bytes flags).run s = some (r, t)) (opened : 0 ≤ r) : fdFlags t r.toNat = flags := by
  cases swiftfs2Open_fds run with
  | failed same => cases opened
  | took fd f bound free used update mode =>
      rw [fdFlags, Int.toNat_natCast, update, Function.update_self, mode]

section Existing
variable (rep : Rep s V) (consistent : Consistent R dirModes V D) (found : (pathWalk path.bytes).run s = some (some i, s))
include rep consistent found

theorem run_open_existing : (swiftfs2Open path.bytes flags).run s =
    if flags &&& (oWronly ||| oRdwr) ≠ 0 ∧ (inodeAt s i).mode &&& sIwusr = 0 then some (-1, s)
    else (do
      if flags &&& oTrunc ≠ 0 then openTrunc i (inodeAt s i)
      openFd i flags).run s := by
  have hi := found_lt rep consistent found
  have resolved : (openResolve path.bytes flags).run s = some (some i, s) := by
    unfold openResolve
    rw [run_bind_some found]
    rfl
  have read : (inodeRead i).run s = some (inodeAt s i, s) := by
    rw [run_inodeRead rep hi, rep.inode i hi]
  unfold swiftfs2Open
  rw [run_bind_some (x := get) (s := s) rfl, rep.layout.mounted]
  simp only [Bool.not_true, Bool.false_eq_true, if_false]
  rw [run_bind_some resolved]
  dsimp only
  rw [run_bind_some read]
  split
  · rfl
  · rfl

theorem open_denied (readOnly : (inodeAt s i).mode &&& sIwusr = 0) (writing : flags &&& (oWronly ||| oRdwr) ≠ 0) :
    (swiftfs2Open path.bytes flags).run s = some (-1, s) := by
  rw [run_open_existing rep consistent found, if_pos ⟨writing, readOnly⟩]

theorem open_stored (reading : flags = oRdonly) (run : (swiftfs2Open path.bytes flags).run s = some (r, t)) : stored t = stored s := by
  subst reading
  rw [run_open_existing rep consistent found, if_neg (by rintro ⟨writing, -⟩; exact writing (by decide)),
    if_neg (by decide : ¬ oRdonly &&& oTrunc ≠ 0)] at run
  have keeps : Keeps stored (openFd i oRdonly : FsM Disk _) := by
    unfold openFd fdAlloc
    refine .bind (.bind .get fun _ => .pure _) fun found => ?_
    cases found with
    | none => exact .pure _
    | some fd => exact .bind (.modify fun _ => rfl) fun _ => .pure _
  exact keeps s r t run

end Existing

theorem enforced_of (rep : Rep s V) (consistent : Consistent R dirModes V D) (ok : flags = oRdonly ∨ flags = oWronly ∨ flags &&& oRdwr ≠ 0) :
    Enforced s path flags := by
  -- a protected file is opened with `O_RDONLY` alone, or not at all
  have kept (i : Nat) (found : (pathWalk path.bytes).run s = some (some i, s)) (protected_ : Protected s i flags) (r : Int) (t : FsState Disk)
      (run : (swiftfs2Open path.bytes flags).run s = some (r, t)) : stored t = stored s ∧ (0 ≤ r → flags = oRdonly) := by
    by_cases reading : flags = oRdonly
    · exact ⟨open_stored rep consistent found reading run, fun _ => reading⟩
    · have writing : flags &&& (oWronly ||| oRdwr) ≠ 0 ∧ flags &&& 3 ≠ oRdonly := by
        have low : flags &&& 3 ≠ oRdonly := by
          rcases ok with none | only | rdwr
          · exact absurd none reading
          · rw [only]
            decide
          · exact rdwr_not_rdonly rdwr
        exact ⟨low, low⟩
      have denied := open_denied rep consistent found (protected_.resolve_left writing.2) writing.1
      rw [denied] at run
      cases run
      exact ⟨rfl, fun opened => by cases opened⟩
  refine ⟨fun i found protected_ r t run => fileContents_congr (kept i found protected_ r t run).1 i,
    fun i found protected_ r t run opened as u later => ?_, fun low r t run opened as u later size => ?_⟩
  · obtain ⟨same, reading⟩ := kept i found protected_ r t run
    have readOnly : fdFlags t r.toNat = oRdonly := (open_flags run opened).trans (reading opened)
    exact (fileContents_congr (accesses_stored readOnly later) i).trans (fileContents_congr same i)
  · have writing : flags = oWronly := by
      rcases ok with none | only | rdwr
      · rw [none] at low
        exact absurd low (by decide)
      · exact only
      · exact absurd low (rdwr_not_wronly rdwr)
    refine swiftfs2Read_refused ?_ size
    rw [keeps_accesses r as t () u later, open_flags run opened, writing]

theorem run_freeBlocks_none {x : Inode} (direct : ∀ k, x.direct k = 0) (indirect : x.indirect = 0) (double : x.doubleIndirect = 0) :
    (freeBlocks x : FsM Disk _).run s = some (x, s) := by
  have loop (l : List (Fin 12)) : (l.foldlM (fun x k => do
      if x.direct k ≠ 0 then
        blockFree (x.direct k)
        return x.setDirect k 0
      else return x) x : FsM Disk _).run s = some (x, s) := by
    induction l with
    | nil => rfl
    | cons k l ih =>
        rw [List.foldlM_cons, if_neg (not_not.mpr (direct k)), @run_bind_some _ _ _ _ _ s s x rfl]
        exact ih
  have same : { x with indirect := 0, doubleIndirect := 0 } = x := by
    cases x
    simp only at indirect double
    rw [indirect, double]
  unfold freeBlocks
  rw [run_bind_some (loop _), if_neg (not_not.mpr indirect), if_neg (not_not.mpr double)]
  simp only [same]
  rfl

theorem NewFile.open_again {ino fd : Nat} (file : NewFile s V D ino fd) (flags : UInt32) :
    ∃ (d : Nat) (t : FsState Disk), (swiftfs2Open filePath.bytes flags).run s = some ((d : Int), t) ∧ d < 64 ∧ Rep t (V.setFd d ⟨ino, 0, flags, false⟩) := by
  obtain ⟨s', found, -⟩ := run_pathWalk file.rep file.consistent filePath
  rw [file.found] at found
  obtain rfl : s' = s := keepsAll_pathWalk _ _ _ _ found
  have empty : inodeAt s' ino = { Inode.zero with mode := sIfreg ||| 0o644 } := (file.rep.inode ino file.bound).trans file.empty
  have truncates : ∃ t, Rep t V ∧ (do
      if flags &&& oTrunc ≠ 0 then openTrunc ino (inodeAt s' ino)
      openFd ino flags : FsM Disk Int).run s' = (openFd ino flags).run t := by
    by_cases trunc : flags &&& oTrunc = 0
    · rw [if_neg (not_not.mpr trunc)]
      exact ⟨s', file.rep, rfl⟩
    · obtain ⟨_, t, _, write, rep, rfl⟩ := runs_inodeWrite file.bound (V.inode ino) s' file.rep
      rw [setInode_self] at rep
      have truncate : (openTrunc ino (inodeAt s' ino)).run s' = some ((), t) := by
        rw [empty]
        unfold openTrunc
        rw [run_bind_some (run_freeBlocks_none (fun _ => rfl) rfl rfl)]
        rw [file.empty] at write
        exact write
      refine ⟨t, rep, ?_⟩
      rw [if_pos trunc, run_bind_some truncate]
  obtain ⟨s₁, rep₁, same⟩ := truncates
  obtain ⟨r, t, _, last, rep, post⟩ := runs_openFd ino flags s₁ rep₁
  have run : (swiftfs2Open filePath.bytes flags).run s' = some (r, t) := by
    rw [run_open_existing file.rep file.consistent found, if_neg fun denied => absurd denied.2 (by rw [empty]; decide), same]
    exact last
  rcases post with ⟨-, -, full⟩ | ⟨d, rfl, rfl, -, upper, -⟩
  · obtain ⟨other, lower, upper, different⟩ : ∃ other, 2 ≤ other ∧ other < 64 ∧ other ≠ fd := by
      by_cases two : fd = 2
      · exact ⟨3, by omega, by omega, by omega⟩
      · exact ⟨2, by omega, by omega, by omega⟩
    exact absurd (file.free other different) (full other lower upper)
  · exact ⟨d, t, run, upper, rep⟩

theorem NewFile.not_enforced {ino fd : Nat} (file : NewFile s V D ino fd) (bad : ¬ (flags = oRdonly ∨ flags = oWronly ∨ flags &&& oRdwr ≠ 0)) :
    ¬ Enforced s filePath flags := by
  intro enforced
  rw [not_or, not_or, not_not] at bad
  obtain ⟨nonzero, other, rdwr⟩ := bad
  obtain ⟨s', found, -⟩ := run_pathWalk file.rep file.consistent filePath
  rw [file.found] at found
  obtain rfl : s' = s := keepsAll_pathWalk _ _ _ _ found
  obtain ⟨d, t, run, upper, rep⟩ := file.open_again flags
  have opened : (0 : Int) ≤ d := Int.natCast_nonneg d
  have own := (file.consistent.setFd (f := ⟨ino, 0, flags, false⟩) d file.bound).own
  have here : (V.setFd d ⟨ino, 0, flags, false⟩).fds (d : Int).toNat = ⟨ino, 0, flags, false⟩ := by
    rw [Int.toNat_natCast]
    exact Function.update_self _ _ _
  have isOpen : fdOpen (V.setFd d ⟨ino, 0, flags, false⟩).fds d = true := by
    have used : (ino != 0) = true := bne_iff_ne.mpr file.nonzero
    simp only [fdOpen, here, used, opened, decide_true, Bool.and_true, Bool.true_and, decide_eq_true_eq]
    omega
  rcases low_bits rdwr with low | low
  · -- a byte can be written
    have empty : (V.setFd d ⟨ino, 0, flags, false⟩).inode ino = { Inode.zero with mode := sIfreg ||| 0o644 } := file.empty
    have solid : Solid (V.setFd d ⟨ino, 0, flags, false⟩).data { Inode.zero with mode := sIfreg ||| 0o644 } 0 := fun k small => by omega
    have writable : ((V.setFd d ⟨ino, 0, flags, false⟩).fds (d : Int).toNat).flags ≠ oRdonly := by
      rw [here]
      exact nonzero
    have room := file.avail
    have avail : (V.setFd d ⟨ino, 0, flags, false⟩).avail = V.avail := Vol.avail_congr rfl rfl rfl
    have all := @runs_swiftfs2Write_room _ _ d [0x61] own (by rw [here]; exact file.bound) isOpen writable file.roomy
      (by rw [here]; exact Nat.le_of_ble_eq_true rfl)
      (by
        rw [here, avail, List.length_singleton]
        simp only
        omega)
    obtain ⟨r, u, W, write, repW, post⟩ := @runs_swiftfs2Write _ _ own d [0x61] (by rw [here]; exact file.bound) t rep
    obtain ⟨r', u', _, write', -, rfl⟩ := all t rep
    obtain ⟨rfl, rfl⟩ := Prod.mk.inj (Option.some.inj (write.symm.trans write'))
    obtain ⟨n, count, -, ownW, inodes, -, -, size, -⟩ := post.file own isOpen writable file.bound (by rw [here]) (by rw [here]) empty solid
      (Nat.zero_le _)
    obtain rfl : n = 1 := by
      rw [List.length_singleton] at count
      omega
    have later : (accesses d [.write [0x61]]).run t = some ((), u) := by
      unfold accesses
      rw [@run_bind_some _ _ _ _ _ t u () (by unfold Access.run; rw [run_bind_some write]; rfl)]
      rfl
    have same := enforced.accessed ino found (.inl low) d t run opened _ u later
    have grown : (fileContents u ino).length = 1 := by
      rw [repW.fileContents ownW (by rw [inodes]; exact file.bound), contents, List.length_map, List.length_range, size]
      rfl
    have before : (fileContents s' ino).length = 0 := by
      rw [file.rep.fileContents file.consistent.own file.bound, contents, List.length_map, List.length_range, file.empty]
      rfl
    rw [same, before] at grown
    cases grown
  · -- a read does not fail
    have refused := enforced.hidden low d t run opened [] t rfl 1
    obtain ⟨r, u, W, read, -, post⟩ := @runs_swiftfs2Read _ _ own d 1 (by rw [here]; exact file.bound) t rep
    obtain ⟨rfl, rfl⟩ := Prod.mk.inj (Option.some.inj (refused.symm.trans read))
    cases post with
    | refused h =>
        rcases h with closed | writeOnly
        · rw [isOpen] at closed
          cases closed
        · rw [here] at writeOnly
          exact other writeOnly

/-- The volumes of one group that `mkfs` makes, after any run of admissible calls. -/
def Volume (s : FsState Disk) : Prop := ∃ sizeMb img heap s₀, (Geometry.ofMb sizeMb).nrGroups = 1 ∧ mkfs sizeMb = some img ∧
  swiftfs2Mount.run (FsState.boot img heap) = some (0, s₀) ∧ ReachBoot Admissible s₀ s

theorem Volume.sound (volume : Volume s) : ∃ V D, Rep s V ∧ ∃ R, Consistent R dirModes V D := by
  obtain ⟨sizeMb, img, heap, s₀, one, made, mounted, reach⟩ := volume
  obtain ⟨V, D, rep, consistent⟩ := reachBoot_sound (fun _ _ _ _ => Admissible.safe)
    (mkfs_sound one made mounted fun x => (dirModes_isDir x).mpr) reach
  exact ⟨V, D, rep, _, consistent⟩

/-- Access modes are enforced for exactly the flags words `O_RDONLY` and `O_WRONLY` with nothing else in them, and those with `O_RDWR`. -/
theorem access_modes_iff (flags : UInt32) :
    (∀ s path, Volume s → Enforced s path flags) ↔ flags = oRdonly ∨ flags = oWronly ∨ flags &&& oRdwr ≠ 0 := by
  constructor
  · intro enforced
    by_contra bad
    obtain ⟨img, s₀, s, V, D, i, fd, made, mounted, reach, file⟩ := newFile_128
    exact file.not_enforced bad (enforced s filePath ⟨128, img, _, s₀, by decide, made, mounted, reach⟩)
  · rintro ok s path volume
    obtain ⟨V, D, rep, R, consistent⟩ := volume.sound
    exact enforced_of rep consistent ok

/-- A file opened with `O_RDONLY | O_CREAT` can be written. -/
theorem created_rdonly_written : ∃ s, Volume s ∧ ¬ Enforced s filePath (oRdonly ||| oCreat) := by
  obtain ⟨img, s₀, s, V, D, i, fd, made, mounted, reach, file⟩ := newFile_128
  exact ⟨s, ⟨128, img, _, s₀, by decide, made, mounted, reach⟩, file.not_enforced (by decide)⟩

end SwiftBSD.Proof.Fs
