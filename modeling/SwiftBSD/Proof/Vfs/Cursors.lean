import SwiftBSD.Vfs.Call
import SwiftBSD.Proof.Vfs.Denotes

namespace SwiftBSD.Proof.Vfs
open Lib SwiftBSD.Fs SwiftBSD.Vfs SwiftBSD.Proof.Fs

variable {σ : Type} [BlockStore σ] {s t u : VfsState σ} {file : Nat → Nat} {fd : Int} {i j : Nat}

theorem swiftfs2Open_inode {path : List UInt8} {flags : UInt32} {r : Int} {s t : FsState σ} (run : (swiftfs2Open path flags).run s = some (r, t))
    (success : 0 ≤ r) : (t.fds r.toNat).inode = resolved path flags s := by
  unfold swiftfs2Open at run
  rw [run_bind_some (x := get) rfl] at run
  split at run
  · cases run
    cases success
  obtain ⟨found, s₁, resolve, run⟩ := run_bind_eq_some.mp run
  cases found with
  | none =>
      cases run
      cases success
  | some ino =>
      have here : resolved path flags s = ino := by
        unfold resolved
        rw [resolve]
      rw [here]
      obtain ⟨x, s₂, read, run⟩ := run_bind_eq_some.mp run
      have last {s₃ : FsState σ} (run : (openFd ino flags).run s₃ = some (r, t)) : (t.fds r.toNat).inode = ino := by
        unfold openFd at run
        obtain ⟨found, s₄, alloc, run⟩ := run_bind_eq_some.mp run
        cases found with
        | none =>
            cases run
            cases success
        | some fd =>
            cases run
            rw [Int.toNat_natCast]
            dsimp only
            rw [Function.update_self]
      split at run
      · cases run
        cases success
      dsimp only at run
      split at run
      · obtain ⟨_, s₃, trunc, run⟩ := run_bind_eq_some.mp run
        exact last run
      · exact last run

/-- Slots and descriptors of the file system go together one to one. -/
structure Cursors (s : VfsState σ) (file : Nat → Nat) : Prop where
  registered : s.fsList = [.swiftfs]
  kind : ∀ i, i < 64 → (s.fds i).refcount ≠ 0 → (s.fds i).refcount = 1 ∧ ((s.fds i).ops = some .serial ∨ (s.fds i).ops = some .swiftfs)
  live : ∀ i, i < 64 → On (s.fds i) (.swiftfs, (s.fds i).priv) →
    (s.fds i).priv < 64 ∧ (s.fs.fds (s.fds i).priv).inode = file i ∧ file i ≠ 0
  distinct : ∀ i j d, i < 64 → j < 64 → On (s.fds i) (.swiftfs, d) → On (s.fds j) (.swiftfs, d) → i = j
  owned : ∀ d, d < 64 → (s.fs.fds d).inode ≠ 0 → ∃ i, i < 64 ∧ On (s.fds i) (.swiftfs, d)

omit [BlockStore σ] in
theorem on_congr (same : handles t = handles s) (i : Nat) (h : Handle) : On (t.fds i) h ↔ On (s.fds i) h := by
  obtain ⟨ops, priv, refcount⟩ := handles_slot same i
  constructor
  · rintro ⟨used, table, value⟩
    exact ⟨refcount ▸ used, ops ▸ table, priv ▸ value⟩
  · rintro ⟨used, table, value⟩
    exact ⟨refcount ▸ used, ops ▸ table, priv ▸ value⟩

omit [BlockStore σ] in
theorem Cursors.congr (cursors : Cursors s file) (same : handles t = handles s) : Cursors t file := by
  have inode (d : Nat) : (t.fs.fds d).inode = (s.fs.fds d).inode := congrFun (congrArg (·.2.1) same) d
  have registered : t.fsList = s.fsList := congrArg (·.2.2) same
  refine ⟨registered.trans cursors.registered, fun i bound used => ?_, fun i bound on => ?_, fun i j d bound bound' on on' => ?_,
    fun d bound live => ?_⟩
  · obtain ⟨ops, priv, refcount⟩ := handles_slot same i
    rw [refcount] at used ⊢
    rw [ops]
    exact cursors.kind i bound used
  · obtain ⟨ops, priv, refcount⟩ := handles_slot same i
    rw [on_congr same, priv] at on
    rw [inode, priv]
    exact cursors.live i bound on
  · exact cursors.distinct i j d bound bound' ((on_congr same i _).mp on) ((on_congr same j _).mp on')
  · rw [inode] at live
    obtain ⟨i, small, on⟩ := cursors.owned d bound live
    exact ⟨i, small, (on_congr same i _).mpr on⟩

omit [BlockStore σ] in
theorem Cursors.no_pipe (cursors : Cursors s file) (bound : i < 64) (used : (s.fds i).refcount ≠ 0) :
    (s.fds i).ops ≠ some .pipeRead ∧ (s.fds i).ops ≠ some .pipeWrite := by
  rcases (cursors.kind i bound used).2 with serial | swiftfs
  · rw [serial]
    decide
  · rw [swiftfs]
    decide

omit [BlockStore σ] in
theorem runPending_done {n : Nat} {r : Int} {bytes : List UInt8} :
    (runPending n (.done r bytes) : VfsM σ Progress).run s = some (.done r bytes, s) := by
  cases n <;> rfl

def Others (s t : VfsState σ) (fd : Int) : Prop := ∀ i : Nat, (i : Int) ≠ fd → t.fds i = s.fds i

/-- The descriptor as `sw_read` and `sw_write` leave it to `swiftfs2_read` and `swiftfs2_write`. -/
def seek (s : VfsState σ) (i : Nat) : FsState σ := setPos (s.fds i).priv ((s.fds i).pos.toNat % 2 ^ 32) s.fs

/-- The slot takes the position back if something was moved. -/
def moved (s : VfsState σ) (i : Nat) (r : Int) (fs : FsState σ) : VfsState σ :=
  { s with
    fs
    fds := Function.update s.fds i { s.fds i with pos := if 0 < r then .ofNat (fs.fds (s.fds i).priv).pos else (s.fds i).pos } }

inductive ReadRun (s : VfsState σ) (fd : Int) (sz : UInt32) : Progress → VfsState σ → Prop
  | bad (none : SwiftBSD.Vfs.fdOpen s.fds fd = false) : ReadRun s fd sz (.done (-1) []) s
  | serial {i : Nat} {p : Progress} {t : VfsState σ} (here : fd = i) (bound : i < 64) (ops : (s.fds i).ops = some .serial)
      (fds : t.fds = s.fds) : ReadRun s fd sz p t
  | file {i : Nat} {r : Int} {bytes : List UInt8} {fs : FsState σ} (here : fd = i) (bound : i < 64) (on : On (s.fds i) (.swiftfs, (s.fds i).priv))
      (read : (swiftfs2Read (s.fds i).priv sz.toNat).run (seek s i) = some ((r, bytes), fs)) :
      ReadRun s fd sz (.done r bytes) (moved s i r fs)

omit [BlockStore σ] in
theorem seek_eq (s : VfsState σ) (i : Nat) : setPos (s.fds i).priv (s.fds i).pos.toUInt32.toNat s.fs = seek s i := by
  unfold seek
  rw [UInt64.toNat_toUInt32]

theorem Cursors.readRun {sz : UInt32} {p : Progress} (cursors : Cursors s file) (run : (vfsRead fd sz).run s = some (p, t)) :
    ReadRun s fd sz p t := by
  unfold vfsRead at run
  obtain ⟨first, s₁, start, run⟩ := run_bind_eq_some.mp run
  unfold vfsReadStart at start
  rw [run_bind_some (x := get) rfl] at start
  cases isOpen : SwiftBSD.Vfs.fdOpen s.fds fd with
  | false =>
      rw [isOpen] at start
      cases start
      rw [runPending_done] at run
      cases run
      exact .bad isOpen
  | true =>
      obtain ⟨i, rfl, bound, used⟩ := fdOpen_iff.mp isOpen
      rw [isOpen, if_neg (by decide)] at start
      dsimp only at start
      rw [Int.toNat_natCast] at start
      split at start
      · next serial =>
          unfold serRead at start
          cases start
          rw [runPending_done] at run
          cases run
          exact .serial rfl bound serial rfl
      · next swiftfs =>
          obtain ⟨⟨r, bytes, pos⟩, s₂, swRun, start⟩ := run_bind_eq_some.mp start
          cases start
          rw [runPending_done] at run
          cases run
          unfold swRead at swRun
          obtain ⟨_, s₃, set, swRun⟩ := run_bind_eq_some.mp swRun
          obtain ⟨fs₃, set, rfl⟩ := liftFs_run set
          cases set
          obtain ⟨⟨r', bytes'⟩, s₄, read, swRun⟩ := run_bind_eq_some.mp swRun
          obtain ⟨fs, inner, rfl⟩ := liftFs_run read
          cases swRun
          dsimp only at inner
          rw [seek_eq] at inner
          exact .file rfl bound ⟨used, swiftfs, rfl⟩ inner
      · next pipe => exact absurd pipe (cursors.no_pipe bound used).1
      · cases start

inductive WriteRun (s : VfsState σ) (fd : Int) (buf : List UInt8) : Progress → VfsState σ → Prop
  | bad (none : SwiftBSD.Vfs.fdOpen s.fds fd = false) : WriteRun s fd buf (.done (-1) []) s
  | serial {i : Nat} {p : Progress} {t : VfsState σ} (here : fd = i) (bound : i < 64) (ops : (s.fds i).ops = some .serial)
      (fds : t.fds = s.fds) : WriteRun s fd buf p t
  | file {i : Nat} {r : Int} {fs : FsState σ} (here : fd = i) (bound : i < 64) (on : On (s.fds i) (.swiftfs, (s.fds i).priv))
      (write : (swiftfs2Write (s.fds i).priv buf).run (seek s i) = some (r, fs)) : WriteRun s fd buf (.done r []) (moved s i r fs)

theorem Cursors.writeRun {buf : List UInt8} {p : Progress} (cursors : Cursors s file) (run : (vfsWrite fd buf).run s = some (p, t)) :
    WriteRun s fd buf p t := by
  unfold vfsWrite at run
  obtain ⟨first, s₁, start, run⟩ := run_bind_eq_some.mp run
  unfold vfsWriteStart at start
  rw [run_bind_some (x := get) rfl] at start
  cases isOpen : SwiftBSD.Vfs.fdOpen s.fds fd with
  | false =>
      rw [isOpen] at start
      cases start
      rw [runPending_done] at run
      cases run
      exact .bad isOpen
  | true =>
      obtain ⟨i, rfl, bound, used⟩ := fdOpen_iff.mp isOpen
      rw [isOpen, if_neg (by decide)] at start
      dsimp only at start
      rw [Int.toNat_natCast] at start
      split at start
      · next serial =>
          unfold serWrite at start
          cases start
          rw [runPending_done] at run
          cases run
          exact .serial rfl bound serial rfl
      · next swiftfs =>
          obtain ⟨⟨r, pos⟩, s₂, swRun, start⟩ := run_bind_eq_some.mp start
          cases start
          rw [runPending_done] at run
          cases run
          unfold swWrite at swRun
          obtain ⟨_, s₃, set, swRun⟩ := run_bind_eq_some.mp swRun
          obtain ⟨fs₃, set, rfl⟩ := liftFs_run set
          cases set
          obtain ⟨r', s₄, write, swRun⟩ := run_bind_eq_some.mp swRun
          obtain ⟨fs, inner, rfl⟩ := liftFs_run write
          cases swRun
          dsimp only at inner
          rw [seek_eq] at inner
          exact .file rfl bound ⟨used, swiftfs, rfl⟩ inner
      · next pipe => exact absurd pipe (cursors.no_pipe bound used).2
      · cases start

inductive OpenRun (s : VfsState σ) (path : List UInt8) (flags : UInt32) : Int → VfsState σ → Prop
  | failed {fs : FsState σ} (same : fs.fds = s.fs.fds) : OpenRun s path flags (-1) { s with fs }
  | full {fs : FsState σ} {d : Nat} {f : Fd} {t : VfsState σ} (bound : d < 64) (free : (s.fs.fds d).inode = 0)
      (used : f.inode ≠ 0) (table : fs.fds = Function.update s.fs.fds d f)
      (close : CloseRun { s with fs, opened := s.opened ++ [(.swiftfs, d)] } .swiftfs d t) : OpenRun s path flags (-1) t
  | took {fs : FsState σ} {d i : Nat} {f : Fd} {opened : List Handle} (bound : d < 64) (free : (s.fs.fds d).inode = 0)
      (inode : f.inode = resolved path flags s.fs) (used : f.inode ≠ 0) (table : fs.fds = Function.update s.fs.fds d f)
      (lower : 2 ≤ i) (upper : i < 64) (empty : (s.fds i).refcount = 0) :
      OpenRun s path flags i { s with fs, opened, fds := Function.update s.fds i ⟨some .swiftfs, d, 0, flags, 1⟩ }

theorem vfsOpen_openRun {path : List UInt8} {flags : UInt32} {r : Int} (registered : s.fsList = [.swiftfs])
    (run : (vfsOpen path flags).run s = some (r, t)) : OpenRun s path flags r t := by
  unfold vfsOpen at run
  rw [run_bind_some (x := get) rfl, registered] at run
  unfold vfsOpenIn opsOpen at run
  dsimp only at run
  obtain ⟨priv, s₁, opening, run⟩ := run_bind_eq_some.mp run
  obtain ⟨d, s₂, lifted, opening⟩ := run_bind_eq_some.mp opening
  obtain ⟨fs, inner, rfl⟩ := liftFs_run lifted
  cases swiftfs2Open_fds inner with
  | failed same =>
      rw [if_pos (by decide)] at opening
      cases opening
      cases run
      exact .failed same
  | took d f bound free used table _ =>
      have inode := swiftfs2Open_inode inner (Int.natCast_nonneg d)
      rw [Int.toNat_natCast, table, Function.update_self] at inode
      rw [if_neg (by omega), run_bind_some (x := modify _) rfl] at opening
      cases opening
      obtain ⟨slot, s₃, alloc, run⟩ := run_bind_eq_some.mp run
      obtain ⟨rfl, found⟩ := fdAlloc_run alloc
      cases slot with
      | none =>
          obtain ⟨ret, u, close, run⟩ := run_bind_eq_some.mp run
          cases run
          exact .full bound free used table (opsClose_run close)
      | some i =>
          rw [run_bind_some (x := setFile _ _) rfl] at run
          cases run
          exact .took bound free inode used table found.1 found.2.1 found.2.2

theorem Cursors.opened {path : List UInt8} {flags : UInt32} {r : Int} (cursors : Cursors s file) (run : OpenRun s path flags r t) :
    Cursors t (if 0 ≤ r then Function.update file r.toNat (resolved path flags s.fs) else file) ∧
      ∀ i, (s.fds i).refcount ≠ 0 → t.fds i = s.fds i := by
  cases run with
  | failed same =>
      rw [if_neg (by decide)]
      refine ⟨?_, fun _ _ => rfl⟩
      refine cursors.congr ?_
      unfold handles fdInode
      dsimp only
      rw [same]
  | @full fs d f _ bound free used table close =>
      rw [if_neg (by decide)]
      cases close with
      | @swiftfs fs' _ table' =>
          refine ⟨cursors.congr ?_, fun _ _ => rfl⟩
          have back : fdInode fs' = fdInode s.fs := by
            funext k
            unfold fdInode
            dsimp only at table'
            have live : SwiftBSD.Fs.fdOpen fs.fds d = true := by
              unfold SwiftBSD.Fs.fdOpen
              rw [Int.toNat_natCast, table, Function.update_self]
              simp [bound, used]
            rw [table', if_pos live, table, Function.update_idem]
            by_cases same : k = d
            · rw [same, Function.update_self, free]
              rfl
            · rw [Function.update_of_ne same]
          unfold handles
          rw [← back]
      | pipe isPipe => rcases isPipe with same | same <;> cases same
  | @took fs d i f opened bound free inode used table lower upper empty =>
      have slot (k : Nat) (other : k ≠ i) : Function.update s.fds i ⟨some .swiftfs, d, 0, flags, 1⟩ k = s.fds k := Function.update_of_ne other _ _
      have descriptor (k : Nat) (other : k ≠ d) : fs.fds k = s.fs.fds k := by
        rw [table, Function.update_of_ne other]
      have here : fs.fds d = f := by rw [table, Function.update_self]
      -- a descriptor in use is not the one that was free
      have apart {k : Nat} (small : k < 64) (on : On (s.fds k) (.swiftfs, (s.fds k).priv)) : (s.fds k).priv ≠ d := by
        intro same
        obtain ⟨-, held, live⟩ := cursors.live k small on
        rw [same, free] at held
        exact live held.symm
      refine ⟨?_, fun k open_ => slot k fun same => open_ (same ▸ empty)⟩
      rw [if_pos (Int.natCast_nonneg i), Int.toNat_natCast]
      refine ⟨cursors.registered, fun k small open_ => ?_, fun k small on => ?_, fun k l d' small small' on on' => ?_, fun d' small live => ?_⟩
      · dsimp only at open_ ⊢
        by_cases same : k = i
        · subst same
          rw [Function.update_self]
          exact ⟨rfl, .inr rfl⟩
        · rw [slot k same] at open_ ⊢
          exact cursors.kind k small open_
      · dsimp only at on ⊢
        by_cases same : k = i
        · subst same
          rw [Function.update_self, Function.update_self, here]
          exact ⟨bound, inode, inode ▸ used⟩
        · rw [slot k same] at on ⊢
          rw [descriptor _ (apart small on), Function.update_of_ne same]
          exact cursors.live k small on
      · dsimp only at on on'
        have lone {k : Nat} (small : k < 64) (other : k ≠ i) (on : On (s.fds k) (.swiftfs, d')) : d' ≠ d := by
          have priv : (s.fds k).priv = d' := on.priv
          rw [← priv]
          exact apart small ⟨on.used, on.ops, rfl⟩
        by_cases same : k = i
        · by_cases same' : l = i
          · rw [same, same']
          · rw [slot l same'] at on'
            rw [same, Function.update_self] at on
            exact absurd on.priv.symm (lone small' same' on')
        · rw [slot k same] at on
          by_cases same' : l = i
          · rw [same', Function.update_self] at on'
            exact absurd on'.priv.symm (lone small same on)
          · rw [slot l same'] at on'
            exact cursors.distinct k l d' small small' on on'
      · dsimp only at live ⊢
        by_cases same : d' = d
        · subst same
          exact ⟨i, upper, by rw [Function.update_self]; exact ⟨Int.one_ne_zero, rfl, rfl⟩⟩
        · rw [descriptor d' same] at live
          obtain ⟨k, small', on⟩ := cursors.owned d' small live
          refine ⟨k, small', ?_⟩
          rw [slot k fun same => on.used (same ▸ empty)]
          exact on

omit [BlockStore σ] in
theorem Cursors.release (cursors : Cursors s file) (registered : t.fsList = s.fsList)
    (fds : t.fds = Function.update s.fds i ⟨none, 0, 0, 0, 0⟩)
    (kept : ∀ d, ¬On (s.fds i) (.swiftfs, d) → (t.fs.fds d).inode = (s.fs.fds d).inode)
    (freed : ∀ d, On (s.fds i) (.swiftfs, d) → (t.fs.fds d).inode = 0) (bound : i < 64) : Cursors t file := by
  have slot (k : Nat) (other : k ≠ i) : t.fds k = s.fds k := by rw [fds, Function.update_of_ne other]
  have empty : (t.fds i).refcount = 0 := by rw [fds, Function.update_self]
  refine ⟨registered.trans cursors.registered, fun k small used => ?_, fun k small on => ?_, fun k l d small small' on on' => ?_,
    fun d small live => ?_⟩
  · have other : k ≠ i := fun same => used (same ▸ empty)
    rw [slot k other] at used ⊢
    exact cursors.kind k small used
  · have other : k ≠ i := fun same => on.used (same ▸ empty)
    rw [slot k other] at on ⊢
    rw [kept _ fun here => other (cursors.distinct k i _ small bound on here)]
    exact cursors.live k small on
  · have other : k ≠ i := fun same => on.used (same ▸ empty)
    have other' : l ≠ i := fun same => on'.used (same ▸ empty)
    rw [slot k other] at on
    rw [slot l other'] at on'
    exact cursors.distinct k l d small small' on on'
  · have elsewhere : ¬On (s.fds i) (.swiftfs, d) := fun here => live (freed d here)
    rw [kept d elsewhere] at live
    obtain ⟨k, small', on⟩ := cursors.owned d small live
    refine ⟨k, small', ?_⟩
    rw [slot k fun same => elsewhere (same ▸ on)]
    exact on

omit [BlockStore σ] in
theorem Cursors.closed (cursors : Cursors s file) (run : VfsCloseRun s fd t) : Cursors t file := by
  cases run with
  | bad => exact cursors
  | @counted i here bound more =>
      have one := (cursors.kind i bound (by omega)).1
      omega
  | @closed i ops u here bound used last table close =>
      have not_on (serial : (s.fds i).ops ≠ some .swiftfs) (d : Nat) : ¬On (s.fds i) (.swiftfs, d) := fun on => serial on.ops
      cases close with
      | serial =>
          have other : (s.fds i).ops ≠ some .swiftfs := by
            rw [table]
            decide
          exact cursors.release (i := i) rfl (Function.update_idem _ _ _) (fun _ _ => rfl) (fun d on => absurd on (not_on other d)) bound
      | @swiftfs fs _ table' =>
          have on : On (s.fds i) (.swiftfs, (s.fds i).priv) := ⟨used, table, rfl⟩
          obtain ⟨small, inode, live⟩ := cursors.live i bound on
          have opened : SwiftBSD.Fs.fdOpen s.fs.fds (s.fds i).priv = true := by
            unfold SwiftBSD.Fs.fdOpen
            rw [Int.toNat_natCast, inode]
            simp [small, live]
          dsimp only at table'
          rw [if_pos opened] at table'
          refine cursors.release (i := i) rfl (Function.update_idem _ _ _) (fun d elsewhere => ?_) (fun d here => ?_) bound
          · have other : d ≠ (s.fds i).priv := fun same => elsewhere (same ▸ on)
            dsimp only
            rw [table', Function.update_of_ne other]
          · have same : (s.fds i).priv = d := here.priv
            dsimp only
            rw [table', ← same, Function.update_self]
            rfl
      | pipe isPipe =>
          obtain ⟨read, write⟩ := cursors.no_pipe bound used
          rcases isPipe with same | same
          · exact absurd (same ▸ table) read
          · exact absurd (same ▸ table) write

omit [BlockStore σ] in
theorem vfsLseek_others {offset : UInt64} {whence : Int} {r : Int} (run : (vfsLseek fd offset whence).run s = some (r, t)) : Others s t fd := by
  intro i other
  unfold vfsLseek at run
  rw [run_bind_some (x := get) rfl] at run
  cases isOpen : SwiftBSD.Vfs.fdOpen s.fds fd with
  | false =>
      rw [isOpen] at run
      cases run
      rfl
  | true =>
      obtain ⟨k, rfl, bound, used⟩ := fdOpen_iff.mp isOpen
      rw [isOpen, if_neg (by decide)] at run
      dsimp only at run
      split at run
      · cases run
        rfl
      · obtain ⟨_, u, store, run⟩ := run_bind_eq_some.mp run
        cases store
        obtain ⟨-, rfl⟩ := pure_run run
        exact Function.update_of_ne (fun same => other (by rw [same, Int.toNat_natCast])) _ _

omit [BlockStore σ] in
theorem moved_others {r : Int} {fs : FsState σ} : Others s (moved s i r fs) i :=
  fun _ other => Function.update_of_ne (fun same => other (by rw [same])) _ _

def calledOn : SlotCall → Option Int
  | .open_ _ _ => none
  | .read fd _ | .write fd _ | .lseek fd _ _ | .close fd => some fd

theorem Cursors.others {c : SlotCall} {p : Progress} (cursors : Cursors s file) (run : c.exec.run s = some (p, t))
    (used : (s.fds i).refcount ≠ 0) (other : calledOn c ≠ some (i : Int)) : t.fds i = s.fds i := by
  have apart {fd : Int} (ne : some fd ≠ some (i : Int)) : (i : Int) ≠ fd := fun same => ne (by rw [same])
  cases c with
  | open_ path flags =>
      obtain ⟨r, u, opened, run⟩ := run_bind_eq_some.mp run
      cases run
      exact (cursors.opened (vfsOpen_openRun cursors.registered opened)).2 i used
  | read fd sz =>
      cases cursors.readRun run with
      | bad => rfl
      | serial here bound ops fds => rw [fds]
      | file here => exact moved_others i (here ▸ apart other)
  | write fd buf =>
      cases cursors.writeRun run with
      | bad => rfl
      | serial here bound ops fds => rw [fds]
      | file here => exact moved_others i (here ▸ apart other)
  | lseek fd offset whence =>
      obtain ⟨r, u, sought, run⟩ := run_bind_eq_some.mp run
      cases run
      exact vfsLseek_others sought i (apart other)
  | close fd =>
      obtain ⟨r, u, closed, run⟩ := run_bind_eq_some.mp run
      cases run
      exact (vfsClose_run closed).others (apart other)

theorem Cursors.step {c : SlotCall} {p : Progress} (cursors : Cursors s file) (run : c.exec.run s = some (p, t)) :
    Cursors t (c.files s file p) := by
  cases c with
  | open_ path flags =>
      obtain ⟨r, u, opened, run⟩ := run_bind_eq_some.mp run
      cases run
      exact (cursors.opened (vfsOpen_openRun cursors.registered opened)).1
  | read fd sz => exact cursors.congr (keeps_vfsRead fd sz _ _ _ run)
  | write fd buf => exact cursors.congr (keeps_vfsWrite fd buf _ _ _ run)
  | lseek fd offset whence =>
      obtain ⟨r, u, sought, run⟩ := run_bind_eq_some.mp run
      cases run
      exact cursors.congr (keeps_vfsLseek fd offset whence _ _ _ sought)
  | close fd =>
      obtain ⟨r, u, closed, run⟩ := run_bind_eq_some.mp run
      cases run
      exact cursors.closed (vfsClose_run closed)

/-- After `vfs_init`, with no descriptor of the file system in use. -/
structure Fresh (s : VfsState σ) : Prop where
  registered : s.fsList = [.swiftfs]
  serial : ∀ i, i < 64 → (s.fds i).refcount ≠ 0 → (s.fds i).refcount = 1 ∧ (s.fds i).ops = some .serial
  unused : ∀ d, d < 64 → (s.fs.fds d).inode = 0

omit [BlockStore σ] in
theorem Fresh.cursors (fresh : Fresh s) : Cursors s fun _ => 0 := by
  have not_on {i d : Nat} (bound : i < 64) : ¬On (s.fds i) (.swiftfs, d) := by
    intro on
    have serial := (fresh.serial i bound on.used).2
    rw [on.ops] at serial
    cases serial
  refine ⟨fresh.registered, fun i bound used => ?_, fun i bound on => absurd on (not_on bound), fun i j d bound _ on => absurd on (not_on bound),
    fun d bound live => absurd (fresh.unused d bound) live⟩
  obtain ⟨one, serial⟩ := fresh.serial i bound used
  exact ⟨one, .inl serial⟩

theorem slotRun_cursors (fresh : Fresh s) (run : SlotRun s t file) : Cursors t file := by
  induction run with
  | start => exact fresh.cursors
  | step before run ih => exact ih.step run

/-- A read or a write starts where the slot is, and no call on another slot moves it. -/
structure OwnPosition (s : VfsState σ) : Prop where
  read : ∀ i sz p t, i < 64 → On (s.fds i) (.swiftfs, (s.fds i).priv) → (vfsRead i sz).run s = some (p, t) →
    ∃ r bytes fs, (swiftfs2Read (s.fds i).priv sz.toNat).run (seek s i) = some ((r, bytes), fs) ∧ p = .done r bytes ∧ t = moved s i r fs
  write : ∀ i buf p t, i < 64 → On (s.fds i) (.swiftfs, (s.fds i).priv) → (vfsWrite i buf).run s = some (p, t) →
    ∃ r fs, (swiftfs2Write (s.fds i).priv buf).run (seek s i) = some (r, fs) ∧ p = .done r [] ∧ t = moved s i r fs
  others : ∀ (c : SlotCall) p t (i : Nat), c.exec.run s = some (p, t) → (s.fds i).refcount ≠ 0 → calledOn c ≠ some (i : Int) → t.fds i = s.fds i

theorem Cursors.ownPosition (cursors : Cursors s file) : OwnPosition s where
  read := fun i sz p t bound on run => by
    cases cursors.readRun run with
    | bad none =>
        rw [fdOpen_iff.mpr ⟨i, rfl, bound, on.used⟩] at none
        cases none
    | serial here _ ops =>
        obtain rfl := Int.ofNat.inj here
        rw [on.ops] at ops
        cases ops
    | file here _ _ read =>
        obtain rfl := Int.ofNat.inj here
        exact ⟨_, _, _, read, rfl, rfl⟩
  write := fun i buf p t bound on run => by
    cases cursors.writeRun run with
    | bad none =>
        rw [fdOpen_iff.mpr ⟨i, rfl, bound, on.used⟩] at none
        cases none
    | serial here _ ops =>
        obtain rfl := Int.ofNat.inj here
        rw [on.ops] at ops
        cases ops
    | file here _ _ write =>
        obtain rfl := Int.ofNat.inj here
        exact ⟨_, _, write, rfl, rfl⟩
  others := fun _ _ _ _ run used other => cursors.others run used other

/-- In every run, open slots and descriptors in use correspond, and positions are the slots' own. -/
theorem cursors_independent (fresh : Fresh s) (run : SlotRun s t file) : Cursors t file ∧ OwnPosition t :=
  ⟨slotRun_cursors fresh run, (slotRun_cursors fresh run).ownPosition⟩

def freshFiles : VfsState Disk where
  fs := FsState.boot ⟨fun _ => .zero⟩ fun _ => true
  fsList := [.swiftfs]
  pipes := fun _ => none
  serialIn := fun _ => 0
  serialOut := []
  fds := vfsInit fun _ => ⟨none, 0, 0, 0, 0⟩
  opened := []
  closed := []

/-- A process right after `vfs_init` on a volume. -/
def freshOn (fs : FsState Disk) : VfsState Disk := { freshFiles with fs }

theorem freshOn_fresh {fs : FsState Disk} (free : ∀ d, (fs.fds d).inode = 0) : Fresh (freshOn fs) := by
  refine ⟨rfl, fun i bound used => ?_, fun d _ => free d⟩
  unfold freshOn freshFiles vfsInit at used ⊢
  dsimp only at used ⊢
  by_cases standard : i < 2
  · rw [if_pos standard]
    exact ⟨rfl, rfl⟩
  · rw [if_neg standard, if_pos bound] at used
    exact absurd rfl used

end SwiftBSD.Proof.Vfs
