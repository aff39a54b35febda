import SwiftBSD.Lib.Moves
import SwiftBSD.Proof.Vfs.Slots

namespace SwiftBSD.Proof.Vfs
open Lib SwiftBSD.Fs SwiftBSD.Vfs SwiftBSD.Proof.Fs

variable {σ α : Type} {s t u : VfsState σ} {fd newfd : Int} {file : Nat}

/-- The inode that reads and writes on a descriptor work on. -/
def fileOf (s : VfsState σ) (fd : Int) : Option Nat :=
  let f := s.fds fd.toNat
  if SwiftBSD.Vfs.fdOpen s.fds fd ∧ f.ops = some .swiftfs ∧ SwiftBSD.Fs.fdOpen s.fs.fds f.priv then some (s.fs.fds f.priv).inode
  else none

structure Denotes (s : VfsState σ) (i : Nat) (file : Nat) : Prop where
  bound : i < 64
  used : (s.fds i).refcount ≠ 0
  ops : (s.fds i).ops = some .swiftfs
  descriptor : (s.fds i).priv < 64
  inode : (s.fs.fds (s.fds i).priv).inode = file
  live : file ≠ 0

theorem fileOf_eq_some : fileOf s fd = some file ↔ ∃ i : Nat, fd = i ∧ Denotes s i file := by
  unfold fileOf
  dsimp only
  constructor
  · intro value
    split at value
    swap
    · cases value
    next all =>
    obtain ⟨opened, ops, descriptor⟩ := all
    obtain ⟨i, rfl, bound, used⟩ := fdOpen_iff.mp opened
    unfold SwiftBSD.Fs.fdOpen at descriptor
    simp only [Bool.and_eq_true, decide_eq_true_eq, bne_iff_ne] at descriptor
    obtain ⟨⟨-, upper⟩, live⟩ := descriptor
    rw [Int.toNat_natCast] at upper live
    obtain rfl := Option.some.inj value
    exact ⟨i, rfl, bound, used, ops, by omega, rfl, live⟩
  · rintro ⟨i, rfl, bound, used, ops, descriptor, inode, live⟩
    rw [if_pos, Int.toNat_natCast, inode]
    refine ⟨fdOpen_iff.mpr ⟨i, rfl, bound, used⟩, ops, ?_⟩
    unfold SwiftBSD.Fs.fdOpen
    simp only [Bool.and_eq_true, decide_eq_true_eq, bne_iff_ne]
    refine ⟨⟨Int.natCast_nonneg _, by rw [Int.toNat_natCast]; omega⟩, ?_⟩
    rw [Int.toNat_natCast, Int.toNat_natCast, inode]
    exact live

def handles (s : VfsState σ) : (Nat → Option Ops × Nat × Int) × (Nat → Nat) × List Ops :=
  (fun i => ((s.fds i).ops, (s.fds i).priv, (s.fds i).refcount), fdInode s.fs, s.fsList)

theorem handles_slot (same : handles t = handles s) (i : Nat) : (t.fds i).ops = (s.fds i).ops ∧ (t.fds i).priv = (s.fds i).priv ∧
    (t.fds i).refcount = (s.fds i).refcount := by
  have slot := congrFun (congrArg Prod.fst same) i
  exact ⟨congrArg (·.1) slot, congrArg (·.2.1) slot, congrArg (·.2.2) slot⟩

theorem Denotes.congr {i : Nat} (denotes : Denotes s i file) (same : handles t = handles s) : Denotes t i file := by
  obtain ⟨ops, priv, refcount⟩ := handles_slot same i
  have inode := congrFun (congrArg (·.2.1) same) (s.fds i).priv
  change (t.fs.fds _).inode = (s.fs.fds _).inode at inode
  refine ⟨denotes.bound, ?_, ?_, ?_, ?_, denotes.live⟩
  · rw [refcount]
    exact denotes.used
  · rw [ops]
    exact denotes.ops
  · rw [priv]
    exact denotes.descriptor
  · rw [priv, inode]
    exact denotes.inode

theorem fileOf_congr (same : handles t = handles s) (fd : Int) : fileOf t fd = fileOf s fd := by
  refine Option.ext fun file => ?_
  rw [fileOf_eq_some, fileOf_eq_some]
  constructor
  · rintro ⟨i, rfl, denotes⟩
    exact ⟨i, rfl, denotes.congr same.symm⟩
  · rintro ⟨i, rfl, denotes⟩
    exact ⟨i, rfl, denotes.congr same⟩

theorem handles_moved {i : Nat} {f : File} (same : f.ops = (s.fds i).ops ∧ f.priv = (s.fds i).priv ∧ f.refcount = (s.fds i).refcount) :
    handles { s with fds := Function.update s.fds i f } = handles s := by
  unfold handles
  congr 1
  funext j
  by_cases here : j = i
  · subst here
    simp [same]
  · simp [here]

def chain (s : VfsState σ) : (Nat → File) × (Nat → Nat) × List Ops := (s.fds, fdInode s.fs, s.fsList)

theorem handles_of_chain (same : chain t = chain s) : handles t = handles s := by
  have fds : t.fds = s.fds := congrArg (·.1) same
  have rest : (fdInode t.fs, t.fsList) = (fdInode s.fs, s.fsList) := congrArg (·.2) same
  unfold handles
  rw [fds]
  exact congrArg _ rest

section Keep
variable [BlockStore σ]

omit [BlockStore σ] in
theorem keeps_liftFs {x : FsM σ α} (keeps : Keeps fdInode x) : Keeps chain (liftFs x) := by
  intro s a t run
  obtain ⟨fs, inner, rfl⟩ := liftFs_run run
  unfold chain
  rw [← keeps _ _ _ inner]

theorem keeps_swRead (priv sz : Nat) (pos : UInt64) : Keeps chain (swRead priv sz pos : VfsM σ _) := by
  unfold swRead
  refine .bind (keeps_liftFs (.modify fun s => fdInode_setPos s _ _)) fun _ => ?_
  exact .bind (keeps_liftFs (keeps_swiftfs2Read _ _)) fun _ => .bind .get fun _ => .pure _

theorem keeps_swWrite (priv : Nat) (buf : List UInt8) (pos : UInt64) : Keeps chain (swWrite priv buf pos : VfsM σ _) := by
  unfold swWrite
  refine .bind (keeps_liftFs (.modify fun s => fdInode_setPos s _ _)) fun _ => ?_
  exact .bind (keeps_liftFs (keeps_swiftfs2Write _ _)) fun _ => .bind .get fun _ => .pure _

omit [BlockStore σ] in
theorem keeps_getPipe (ptr : Nat) : Keeps handles (getPipe ptr : VfsM σ _) := by
  intro s a t run
  rw [(getPipe_run run).2]

omit [BlockStore σ] in
theorem keeps_pendingIter (call : Pending) : Keeps handles (pendingIter call : VfsM σ _) := by
  cases call with
  | read ptr c =>
      refine .bind (keeps_getPipe ptr) fun p => ?_
      split
      · exact .pure _
      · exact .pure _
      · exact .bind (.modify fun _ => rfl) fun _ => .pure _
  | write ptr c =>
      refine .bind (keeps_getPipe ptr) fun p => ?_
      split
      · exact .pure _
      · exact .pure _
      · exact .bind (.modify fun _ => rfl) fun _ => .pure _

omit [BlockStore σ] in
theorem keeps_runPending (n : Nat) (progress : Progress) : Keeps handles (runPending n progress : VfsM σ _) := by
  induction n generalizing progress with
  | zero =>
      unfold runPending
      exact .pure _
  | succ n ih =>
      cases progress with
      | goes call =>
          unfold runPending
          exact .bind (keeps_pendingIter call) fun next => ih next
      | done ret bytes => exact .pure _
      | waits call => exact .pure _

theorem keeps_vfsReadStart (fd : Int) (sz : UInt32) : Keeps handles (vfsReadStart fd sz : VfsM σ _) := by
  intro s a t run
  unfold vfsReadStart at run
  rw [run_bind_some (x := get) rfl] at run
  split at run
  · cases run
    rfl
  dsimp only at run
  split at run
  · unfold serRead at run
    rw [run_bind_some (x := _) rfl] at run
    cases run
    rfl
  · obtain ⟨⟨ret, bytes, pos⟩, u, read, run⟩ := run_bind_eq_some.mp run
    have kept := keeps_swRead _ _ _ _ _ _ read
    have fds : u.fds = s.fds := congrArg (·.1) kept
    obtain ⟨_, w, store, run⟩ := run_bind_eq_some.mp run
    cases store
    cases run
    exact (handles_moved (by rw [fds]; exact ⟨rfl, rfl, rfl⟩)).trans (handles_of_chain kept)
  · cases run
    rfl
  · cases run

theorem keeps_vfsWriteStart (fd : Int) (buf : List UInt8) : Keeps handles (vfsWriteStart fd buf : VfsM σ _) := by
  intro s a t run
  unfold vfsWriteStart at run
  rw [run_bind_some (x := get) rfl] at run
  split at run
  · cases run
    rfl
  dsimp only at run
  split at run
  · cases run
    rfl
  · obtain ⟨⟨ret, pos⟩, u, write, run⟩ := run_bind_eq_some.mp run
    have kept := keeps_swWrite _ _ _ _ _ _ write
    have fds : u.fds = s.fds := congrArg (·.1) kept
    obtain ⟨_, w, store, run⟩ := run_bind_eq_some.mp run
    cases store
    cases run
    exact (handles_moved (by rw [fds]; exact ⟨rfl, rfl, rfl⟩)).trans (handles_of_chain kept)
  · cases run
    rfl
  · cases run

theorem keeps_vfsRead (fd : Int) (sz : UInt32) : Keeps handles (vfsRead fd sz : VfsM σ _) :=
  .bind (keeps_vfsReadStart fd sz) fun first => keeps_runPending _ first

theorem keeps_vfsWrite (fd : Int) (buf : List UInt8) : Keeps handles (vfsWrite fd buf : VfsM σ _) :=
  .bind (keeps_vfsWriteStart fd buf) fun first => keeps_runPending _ first

omit [BlockStore σ] in
theorem keeps_vfsLseek (fd : Int) (offset : UInt64) (whence : Int) : Keeps handles (vfsLseek fd offset whence : VfsM σ _) := by
  intro s a t run
  unfold vfsLseek at run
  rw [run_bind_some (x := get) rfl] at run
  split at run
  · cases run
    rfl
  dsimp only at run
  split at run
  · cases run
    rfl
  · obtain ⟨_, u, store, run⟩ := run_bind_eq_some.mp run
    cases store
    obtain ⟨-, rfl⟩ := pure_run run
    exact handles_moved ⟨rfl, rfl, rfl⟩

end Keep

def Counted (s : VfsState σ) : Prop := ∀ i, i < 64 → 0 ≤ (s.fds i).refcount

/-- Closing `fd` closes the handle that slot `f` refers to. -/
structure Releases (s : VfsState σ) (fd f : Int) : Prop where
  opened : SwiftBSD.Vfs.fdOpen s.fds fd = true
  last : (s.fds fd.toNat).refcount ≤ 1
  ops : (s.fds fd.toNat).ops = (s.fds f.toNat).ops
  priv : (s.fds fd.toNat).priv = (s.fds f.toNat).priv

theorem Counted.congr (counted : Counted s) (same : handles t = handles s) : Counted t := by
  intro i bound
  rw [(handles_slot same i).2.2]
  exact counted i bound

section Step
variable {i : Nat}

theorem VfsOpenRun.keeps (run : VfsOpenRun s t) (denotes : Denotes s i file) : Denotes t i file := by
  -- the descriptor that is taken was free, so no slot with a file refers to it
  have other {fd : Nat} (free : (s.fs.fds fd).inode = 0) : (s.fds i).priv ≠ fd := by
    rintro rfl
    exact denotes.live (denotes.inode.symm.trans free)
  obtain ⟨bound, used, ops, descriptor, inode, live⟩ := denotes
  cases run with
  | failed same => exact ⟨bound, used, ops, descriptor, by dsimp only; rw [same]; exact inode, live⟩
  | full small free _ table _ close =>
      cases close with
      | swiftfs last =>
          dsimp only at last
          refine ⟨bound, used, ops, descriptor, ?_, live⟩
          dsimp only
          rw [last, table]
          split
          · rw [Function.update_of_ne (other free), Function.update_of_ne (other free)]
            exact inode
          · rw [Function.update_of_ne (other free)]
            exact inode
      | pipe isPipe _ => rcases isPipe with h | h <;> cases h
  | @took fs fd f j flags small free _ table lower upper empty =>
      have slot : i ≠ j := by
        rintro rfl
        exact used empty
      refine ⟨bound, ?_, ?_, ?_, ?_, live⟩ <;> dsimp only <;> rw [Function.update_of_ne slot]
      · exact used
      · exact ops
      · exact descriptor
      · rw [table, Function.update_of_ne (other free)]
        exact inode

theorem VfsOpenRun.keepsCounted (run : VfsOpenRun s t) (counted : Counted s) : Counted t := by
  cases run with
  | failed same => exact counted
  | full _ _ _ _ _ close =>
      cases close with
      | swiftfs last => exact counted
      | pipe isPipe _ => rcases isPipe with h | h <;> cases h
  | @took fs fd f j flags _ _ _ _ _ _ _ =>
      intro k bound
      dsimp only
      rw [Function.update_apply]
      split
      · exact Int.zero_le_ofNat 1
      · exact counted k bound

theorem VfsCloseRun.keeps (run : VfsCloseRun s fd t) (denotes : Denotes s i file) (kept : ¬Releases s fd i) : Denotes t i file := by
  obtain ⟨bound, used, ops, descriptor, inode, live⟩ := denotes
  cases run with
  | bad none => exact ⟨bound, used, ops, descriptor, inode, live⟩
  | @counted j here _ more =>
      by_cases same : i = j
      · subst same
        refine ⟨bound, ?_, ?_, ?_, ?_, live⟩ <;> dsimp only <;> rw [Function.update_self]
        · dsimp only
          omega
        · exact ops
        · exact descriptor
        · exact inode
      · refine ⟨bound, ?_, ?_, ?_, ?_, live⟩ <;> dsimp only <;> rw [Function.update_of_ne same]
        · exact used
        · exact ops
        · exact descriptor
        · exact inode
  | @closed j kind u here upper used' last table close =>
      subst here
      have opened : SwiftBSD.Vfs.fdOpen s.fds j = true := fdOpen_iff.mpr ⟨j, rfl, upper, used'⟩
      have same : i ≠ j := by
        rintro rfl
        exact kept ⟨opened, last, rfl, rfl⟩
      have slot : u.fds i = s.fds i := by
        cases close <;> exact Function.update_of_ne same _ _
      have left : (u.fs.fds (s.fds i).priv).inode = file := by
        cases close with
        | serial => exact inode
        | pipe _ _ => exact inode
        | swiftfs closing =>
            have other : (s.fds i).priv ≠ (s.fds j).priv := fun equal => kept ⟨opened, last, table.trans ops.symm, equal.symm⟩
            dsimp only at closing ⊢
            rw [closing]
            split
            · rw [Function.update_of_ne other]
              exact inode
            · exact inode
      refine ⟨bound, ?_, ?_, ?_, ?_, live⟩ <;> dsimp only <;> rw [Function.update_of_ne same, slot]
      · exact used
      · exact ops
      · exact descriptor
      · exact left

theorem VfsCloseRun.others (run : VfsCloseRun s fd t) (other : (i : Int) ≠ fd) : t.fds i = s.fds i := by
  cases run with
  | bad _ => rfl
  | @counted j here _ _ => exact Function.update_of_ne (fun same => other (by rw [here, same])) _ _
  | @closed j kind u here _ _ _ _ close =>
      have differ : i ≠ j := fun same => other (by rw [here, same])
      dsimp only
      rw [Function.update_of_ne differ]
      cases close <;> exact Function.update_of_ne differ _ _

theorem VfsCloseRun.keepsCounted (run : VfsCloseRun s fd t) (counted : Counted s) : Counted t := by
  intro k bound
  by_cases here : (k : Int) = fd
  · subst here
    cases run with
    | bad _ => exact counted k bound
    | @counted j here _ more =>
        obtain rfl := Int.ofNat.inj here
        dsimp only
        rw [Function.update_self]
        dsimp only
        omega
    | @closed j kind u here _ _ _ _ close =>
        obtain rfl := Int.ofNat.inj here
        dsimp only
        rw [Function.update_self]
  · rw [run.others here]
    exact counted k bound

theorem VfsCloseRun.registered (run : VfsCloseRun s fd t) : t.fsList = s.fsList := by
  cases run with
  | bad _ | counted _ _ _ => rfl
  | closed _ _ _ _ _ close => cases close <;> rfl

def SameHandle (s : VfsState σ) (fd f : Int) : Prop :=
  (s.fds fd.toNat).ops = (s.fds f.toNat).ops ∧ (s.fds fd.toNat).priv = (s.fds f.toNat).priv

theorem Denotes.dupInto {j k : Nat} (denotes : Denotes s i file) (differ : k ≠ j) (counted : 0 ≤ (s.fds j).refcount)
    (same : k = i → SameHandle s j i) : Denotes { s with fds := dupInto j k s.fds } i file := by
  obtain ⟨bound, used, ops, descriptor, inode, live⟩ := denotes
  by_cases old : i = j
  · subst old
    refine ⟨bound, ?_, ?_, ?_, ?_, live⟩ <;> dsimp only <;> rw [dupInto_apply differ, if_pos rfl]
    · dsimp only
      omega
    · exact ops
    · exact descriptor
    · exact inode
  by_cases new : i = k
  · subst new
    obtain ⟨sameOps, samePriv⟩ := same rfl
    rw [Int.toNat_natCast, Int.toNat_natCast] at sameOps samePriv
    refine ⟨bound, ?_, ?_, ?_, ?_, live⟩ <;> dsimp only <;> rw [dupInto_apply differ, if_neg old, if_pos rfl]
    · exact Int.one_ne_zero
    · exact sameOps.trans ops
    · dsimp only
      rw [samePriv]
      exact descriptor
    · dsimp only
      rw [samePriv]
      exact inode
  · refine ⟨bound, ?_, ?_, ?_, ?_, live⟩ <;> dsimp only <;> rw [dupInto_apply differ, if_neg old, if_neg new]
    · exact used
    · exact ops
    · exact descriptor
    · exact inode

theorem Counted.dupInto {j k : Nat} (counted : Counted s) (differ : k ≠ j) : Counted { s with fds := dupInto j k s.fds } := by
  intro l bound
  dsimp only
  rw [dupInto_apply differ]
  split
  · next here =>
      have := counted j (here ▸ bound)
      dsimp only
      omega
  split
  · exact Int.zero_le_ofNat 1
  · exact counted l bound

theorem VfsDup2Run.registered (run : VfsDup2Run s fd newfd t) : t.fsList = s.fsList := by
  cases run with
  | failed _ | made _ _ _ _ _ _ _ => rfl
  | closed _ _ _ _ _ _ _ close => exact close.registered

theorem VfsDup2Run.keepsCounted (run : VfsDup2Run s fd newfd t) (counted : Counted s) : Counted t := by
  cases run with
  | failed _ => exact counted
  | made _ _ differ _ _ _ _ => exact counted.dupInto differ
  | closed _ _ differ _ _ _ _ close => exact (close.keepsCounted counted).dupInto differ

theorem VfsDup2Run.keeps (run : VfsDup2Run s fd newfd t) (denotes : Denotes s i file) (counted : Counted s)
    (kept : SwiftBSD.Vfs.fdOpen s.fds fd = true → 0 ≤ newfd → newfd < 64 → newfd ≠ fd →
      ¬Releases s newfd i ∧ (newfd = i → SameHandle s fd i)) : Denotes t i file := by
  cases run with
  | failed _ => exact denotes
  | @made j k old new differ bound upper used empty =>
      subst old new
      obtain ⟨-, same⟩ := kept (fdOpen_iff.mpr ⟨j, rfl, bound, used⟩) (by omega) (by omega) (by omega)
      exact denotes.dupInto differ (counted j bound) fun here => same (by rw [here])
  | @closed j k u old new differ bound upper used full close =>
      subst old new
      obtain ⟨stays, same⟩ := kept (fdOpen_iff.mpr ⟨j, rfl, bound, used⟩) (by omega) (by omega) (by omega)
      have after := close.keeps denotes stays
      have slot : u.fds j = s.fds j := close.others (by omega)
      refine after.dupInto differ (close.keepsCounted counted j bound) fun here => ?_
      -- a slot that is still open after the close has kept its handle
      obtain ⟨sameOps, samePriv⟩ := same (by rw [here])
      subst here
      unfold SameHandle
      rw [Int.toNat_natCast, Int.toNat_natCast] at sameOps samePriv ⊢
      rw [slot]
      cases close with
      | bad _ => exact ⟨sameOps, samePriv⟩
      | @counted l at_ _ _ =>
          obtain rfl := Int.ofNat.inj at_
          dsimp only
          rw [Function.update_self]
          exact ⟨sameOps, samePriv⟩
      | @closed l kind w at_ _ _ last _ _ =>
          obtain rfl := Int.ofNat.inj at_
          exact (stays ⟨fdOpen_iff.mpr ⟨k, rfl, upper, by omega⟩, last, rfl, rfl⟩).elim

end Step

end SwiftBSD.Proof.Vfs
