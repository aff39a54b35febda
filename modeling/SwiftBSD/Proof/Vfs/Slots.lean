import SwiftBSD.Vfs.File
import SwiftBSD.Proof.Fs.Descriptors

namespace SwiftBSD.Proof.Vfs
open Lib SwiftBSD.Fs SwiftBSD.Vfs SwiftBSD.Proof.Fs

variable {σ : Type} {s t : VfsState σ} {fd : Int} {r : Int} {h : Handle}

/-- The count a pipe keeps for one of its ends. -/
def ends (q : Pipe) : Ops → Int
  | .pipeRead => q.readers
  | .pipeWrite => q.writers
  | _ => 0

def dropEnd (q : Pipe) : Ops → Pipe
  | .pipeRead => { q with readers := q.readers - 1 }
  | .pipeWrite => { q with writers := q.writers - 1 }
  | _ => q

/-- A handle that can still be used. The count of a pipe's end starts at 1 and is never raised. -/
def HandleOpen (s : VfsState σ) : Handle → Prop
  | (.serial, _) => True
  | (.swiftfs, fd) => fd < 64 ∧ (s.fs.fds fd).inode ≠ 0
  | (ops, p) => ∃ q, s.pipes p = some q ∧ ends q ops = 1

structure On (f : File) (h : Handle) : Prop where
  used : f.refcount ≠ 0
  ops : f.ops = some h.1
  priv : f.priv = h.2

def Held (fds : Nat → File) (h : Handle) : Prop := ∃ i, i < 64 ∧ On (fds i) h

theorem On.unique {f : File} {h h' : Handle} (on : On f h) (on' : On f h') : h = h' := by
  have ops := Option.some.inj (on.ops.symm.trans on'.ops)
  have priv := on.priv.symm.trans on'.priv
  exact Prod.ext ops priv

theorem fdOpen_iff {fds : Nat → File} : SwiftBSD.Vfs.fdOpen fds fd = true ↔ ∃ i : Nat, fd = i ∧ i < 64 ∧ (fds i).refcount ≠ 0 := by
  unfold SwiftBSD.Vfs.fdOpen
  simp only [Bool.and_eq_true, decide_eq_true_eq, bne_iff_ne]
  constructor
  · rintro ⟨⟨lower, upper⟩, used⟩
    exact ⟨fd.toNat, by omega, by omega, used⟩
  · rintro ⟨i, rfl, upper, used⟩
    exact ⟨⟨by omega, by omega⟩, used⟩

theorem liftFs_run {α : Type} {x : FsM σ α} {a : α} (run : (liftFs x).run s = some (a, t)) :
    ∃ fs, x.run s.fs = some (a, fs) ∧ t = { s with fs } := by
  unfold liftFs at run
  rw [run_bind_some (x := get) rfl] at run
  cases inner : x.run s.fs with
  | none =>
      rw [inner] at run
      cases run
  | some result =>
      rw [inner] at run
      cases run
      exact ⟨result.2, rfl, rfl⟩

def dropped (q : Pipe) : Option Pipe := if q.readers = 0 ∧ q.writers = 0 then none else some q

inductive CloseRun (s : VfsState σ) : Ops → Nat → VfsState σ → Prop
  | serial {priv : Nat} : CloseRun s .serial priv { s with closed := s.closed ++ [(.serial, priv)] }
  | swiftfs {fs : FsState σ} {priv : Nat} (table : fs.fds =
      if SwiftBSD.Fs.fdOpen s.fs.fds priv then Function.update s.fs.fds priv .zero else s.fs.fds) :
      CloseRun s .swiftfs priv { s with fs, closed := s.closed ++ [(.swiftfs, priv)] }
  | pipe {ops : Ops} {p : Nat} {q : Pipe} (isPipe : ops = .pipeRead ∨ ops = .pipeWrite) (here : s.pipes p = some q) :
      CloseRun s ops p { s with closed := s.closed ++ [(ops, p)],
                                pipes := Function.update s.pipes p (dropped (dropEnd q ops)) }

theorem getPipe_run {p : Nat} {q : Pipe} (run : (getPipe p).run s = some (q, t)) : s.pipes p = some q ∧ t = s := by
  unfold getPipe at run
  rw [run_bind_some (x := get) rfl] at run
  split at run
  · next here =>
      cases run
      exact ⟨here, rfl⟩
  · cases run

theorem pipeDropped_run {p : Nat} {q : Pipe} (run : (pipeDropped p q).run s = some (r, t)) :
    t = { s with pipes := Function.update s.pipes p (dropped q) } := by
  unfold pipeDropped at run
  unfold dropped
  split at run
  · next both =>
      cases run
      rw [if_pos both]
  · next one =>
      cases run
      rw [if_neg one]

theorem fdAlloc_run {found : Option Nat} (run : (SwiftBSD.Vfs.fdAlloc : VfsM σ _).run s = some (found, t)) :
    t = s ∧ match found with
      | none => ∀ i, 2 ≤ i → i < 64 → (s.fds i).refcount ≠ 0
      | some i => 2 ≤ i ∧ i < 64 ∧ (s.fds i).refcount = 0 := by
  obtain ⟨result, rfl⟩ : found = firstFrom (fun i => (s.fds i).refcount == 0) 2 62 ∧ s = t := by
    cases run
    exact ⟨rfl, rfl⟩
  refine ⟨rfl, ?_⟩
  cases found with
  | none =>
      intro i lower upper zero
      have := firstFrom_none.mp result.symm i lower (by omega)
      simp [zero] at this
  | some i =>
      obtain ⟨lower, upper, free, -⟩ := firstFrom_some result.symm
      exact ⟨lower, by omega, by simpa using free⟩

/-- Closing a live handle: it can no longer be used, and every other handle is as it was. -/
structure Closes (s : VfsState σ) (h : Handle) (t : VfsState σ) : Prop where
  fds : t.fds = s.fds
  fsList : t.fsList = s.fsList
  opened : t.opened = s.opened
  closed : t.closed = s.closed ++ [h]
  gone : h.1 ≠ .serial → ¬HandleOpen t h
  others : ∀ other, other ≠ h → HandleOpen s other → HandleOpen t other

theorem handleOpen_congr (fs : t.fs.fds = s.fs.fds) (pipes : t.pipes = s.pipes) : HandleOpen t h ↔ HandleOpen s h := by
  obtain ⟨ops, priv⟩ := h
  cases ops <;> simp only [HandleOpen, fs, pipes]

theorem ends_dropEnd {q : Pipe} {ops other : Ops} (isPipe : ops = .pipeRead ∨ ops = .pipeWrite) :
    ends (dropEnd q ops) other = if other = ops then ends q other - 1 else ends q other := by
  rcases isPipe with rfl | rfl <;> cases other <;> rfl

theorem dropped_some {q : Pipe} {ops : Ops} (more : ends q ops ≠ 0) : dropped q = some q := by
  unfold dropped
  rw [if_neg]
  rintro ⟨readers, writers⟩
  cases ops with
  | pipeRead => exact more readers
  | pipeWrite => exact more writers
  | serial | swiftfs => exact more rfl

theorem dropped_eq_some {q q' : Pipe} (left : dropped q = some q') : q' = q := by
  unfold dropped at left
  split at left
  · cases left
  · exact (Option.some.inj left).symm

theorem handleOpen_pipe {ops : Ops} {p : Nat} (isPipe : ops = .pipeRead ∨ ops = .pipeWrite) :
    HandleOpen s (ops, p) ↔ ∃ q, s.pipes p = some q ∧ ends q ops = 1 := by
  rcases isPipe with rfl | rfl <;> rfl

theorem closes_pipe {ops : Ops} {p : Nat} {q : Pipe} (isPipe : ops = .pipeRead ∨ ops = .pipeWrite)
    (here : s.pipes p = some q) (live : HandleOpen s (ops, p)) :
    Closes s (ops, p) { s with closed := s.closed ++ [(ops, p)],
                               pipes := Function.update s.pipes p (dropped (dropEnd q ops)) } := by
  obtain ⟨q', here', count⟩ := (handleOpen_pipe isPipe).mp live
  obtain rfl := Option.some.inj (here.symm.trans here')
  refine ⟨rfl, rfl, rfl, rfl, fun _ still => ?_, fun other differs still => ?_⟩
  · obtain ⟨q', left, again⟩ := (handleOpen_pipe isPipe).mp still
    dsimp only at left
    rw [Function.update_self] at left
    rw [dropped_eq_some left, ends_dropEnd isPipe, if_pos rfl] at again
    omega
  · obtain ⟨ops', p'⟩ := other
    have kept (isPipe' : ops' = .pipeRead ∨ ops' = .pipeWrite) : HandleOpen
        { s with closed := s.closed ++ [(ops, p)], pipes := Function.update s.pipes p (dropped (dropEnd q ops)) }
        (ops', p') := by
      obtain ⟨q', at', count'⟩ := (handleOpen_pipe isPipe').mp still
      apply (handleOpen_pipe isPipe').mpr
      dsimp only
      by_cases same : p' = p
      · subst same
        obtain rfl := Option.some.inj (here.symm.trans at')
        have apart : ops' ≠ ops := fun same => differs (by rw [same])
        have left : ends (dropEnd q ops) ops' = 1 := by rw [ends_dropEnd isPipe, if_neg apart, count']
        refine ⟨dropEnd q ops, ?_, left⟩
        rw [Function.update_self]
        exact @dropped_some _ ops' (by omega)
      · exact ⟨q', by rw [Function.update_of_ne same, at'], count'⟩
    cases ops' with
    | serial | swiftfs => exact still
    | pipeRead => exact kept (.inl rfl)
    | pipeWrite => exact kept (.inr rfl)

theorem CloseRun.closes {ops : Ops} {priv : Nat} (run : CloseRun s ops priv t) (live : HandleOpen s (ops, priv)) :
    Closes s (ops, priv) t := by
  cases run with
  | serial =>
      exact ⟨rfl, rfl, rfl, rfl, fun serial => (serial rfl).elim, fun other _ => (handleOpen_congr rfl rfl).mpr⟩
  | swiftfs table =>
      obtain ⟨bound, used⟩ := live
      rw [if_pos (by simp [SwiftBSD.Fs.fdOpen, bound, used])] at table
      refine ⟨rfl, rfl, rfl, rfl, fun _ still => ?_, fun other differs still => ?_⟩
      · have := still.2
        rw [table, Function.update_self] at this
        exact this rfl
      · obtain ⟨ops, fd⟩ := other
        cases ops with
        | swiftfs =>
            have apart : fd ≠ priv := fun same => differs (by rw [same])
            refine ⟨still.1, ?_⟩
            rw [table, Function.update_of_ne apart]
            exact still.2
        | serial | pipeRead | pipeWrite => exact still
  | pipe isPipe here => exact closes_pipe isPipe here live

theorem dupInto_apply {i j : Nat} (differ : j ≠ i) (fds : Nat → File) (k : Nat) : dupInto i j fds k =
    if k = i then { fds i with refcount := (fds i).refcount + 1 }
    else if k = j then { fds i with refcount := 1 } else fds k := by
  unfold dupInto
  by_cases old : k = i
  · subst old
    simp [Function.update_of_ne (Ne.symm differ)]
  · by_cases new : k = j
    · subst new
      simp [old]
    · simp [old, new]

theorem dupInto_update {i j : Nat} (differ : j ≠ i) (fds : Nat → File) (f : File) :
    dupInto i j (Function.update fds j f) = dupInto i j fds := by
  funext k
  rw [dupInto_apply differ, dupInto_apply differ, Function.update_of_ne (Ne.symm differ)]
  split
  · rfl
  split
  · rfl
  · next new => exact Function.update_of_ne new _ _

section Close
variable [BlockStore σ]

theorem opsClose_run {ops : Ops} {priv : Nat} (run : (opsClose ops priv).run s = some (r, t)) :
    CloseRun s ops priv t := by
  unfold opsClose at run
  rw [run_bind_some (x := modify _) rfl] at run
  cases ops with
  | serial =>
      cases run
      exact .serial
  | swiftfs =>
      obtain ⟨fs, close, rfl⟩ := liftFs_run run
      exact .swiftfs (swiftfs2Close_fds close)
  | pipeRead =>
      obtain ⟨q, s₁, get, run⟩ := run_bind_eq_some.mp run
      obtain ⟨here, rfl⟩ := getPipe_run get
      rw [pipeDropped_run run]
      exact .pipe (.inl rfl) here
  | pipeWrite =>
      obtain ⟨q, s₁, get, run⟩ := run_bind_eq_some.mp run
      obtain ⟨here, rfl⟩ := getPipe_run get
      rw [pipeDropped_run run]
      exact .pipe (.inr rfl) here

inductive VfsCloseRun (s : VfsState σ) (fd : Int) : VfsState σ → Prop
  | bad (none : SwiftBSD.Vfs.fdOpen s.fds fd = false) : VfsCloseRun s fd s
  | counted {i : Nat} (here : fd = i) (bound : i < 64) (more : 1 < (s.fds i).refcount) :
      VfsCloseRun s fd { s with fds := Function.update s.fds i { s.fds i with refcount := (s.fds i).refcount - 1 } }
  | closed {i : Nat} {ops : Ops} {u : VfsState σ} (here : fd = i) (bound : i < 64) (used : (s.fds i).refcount ≠ 0)
      (last : (s.fds i).refcount ≤ 1) (table : (s.fds i).ops = some ops)
      (close : CloseRun { s with fds := Function.update s.fds i { s.fds i with refcount := (s.fds i).refcount - 1 } } ops
        (s.fds i).priv u) :
      VfsCloseRun s fd { u with fds := Function.update u.fds i ⟨none, 0, 0, 0, 0⟩ }

theorem vfsClose_run (run : (vfsClose fd).run s = some (r, t)) : VfsCloseRun s fd t := by
  unfold vfsClose at run
  rw [run_bind_some (x := get) rfl] at run
  cases isOpen : SwiftBSD.Vfs.fdOpen s.fds fd with
  | false =>
      rw [isOpen] at run
      cases run
      exact .bad isOpen
  | true =>
      obtain ⟨i, rfl, bound, used⟩ := fdOpen_iff.mp isOpen
      rw [isOpen] at run
      split at run
      · next impossible => cases impossible
      dsimp only at run
      rw [Int.toNat_natCast, run_bind_some (x := setFile _ _) rfl] at run
      split at run
      · cases run
        exact .counted rfl bound (by omega)
      · next last =>
          split at run
          · cases run
          · next ops table =>
              obtain ⟨ret, u, close, run⟩ := run_bind_eq_some.mp run
              rw [run_bind_some (x := setFile _ _) rfl] at run
              cases run
              exact .closed rfl bound used (by omega) table (opsClose_run close)

/-- What `vfs_open` does: nothing to the slots, or one free slot now refers to a new handle. -/
inductive VfsOpenRun (s : VfsState σ) : VfsState σ → Prop
  | failed {fs : FsState σ} (same : fs.fds = s.fs.fds) : VfsOpenRun s { s with fs }
  | full {fs : FsState σ} {fd : Nat} {f : Fd} {u : VfsState σ} (bound : fd < 64) (free : (s.fs.fds fd).inode = 0)
      (used : f.inode ≠ 0) (table : fs.fds = Function.update s.fs.fds fd f)
      (none : ∀ i, 2 ≤ i → i < 64 → (s.fds i).refcount ≠ 0)
      (close : CloseRun { s with fs, opened := s.opened ++ [(.swiftfs, fd)] } .swiftfs fd u) : VfsOpenRun s u
  | took {fs : FsState σ} {fd : Nat} {f : Fd} {i : Nat} {flags : UInt32} (bound : fd < 64)
      (free : (s.fs.fds fd).inode = 0) (used : f.inode ≠ 0) (table : fs.fds = Function.update s.fs.fds fd f)
      (lower : 2 ≤ i) (upper : i < 64) (empty : (s.fds i).refcount = 0) :
      VfsOpenRun s { s with fs, opened := s.opened ++ [(.swiftfs, fd)],
                            fds := Function.update s.fds i ⟨some .swiftfs, fd, 0, flags, 1⟩ }

theorem vfsOpen_run {path : List UInt8} {flags : UInt32} (registered : s.fsList = [.swiftfs])
    (run : (vfsOpen path flags).run s = some (r, t)) : VfsOpenRun s t := by
  unfold vfsOpen at run
  rw [run_bind_some (x := get) rfl, registered] at run
  unfold vfsOpenIn opsOpen at run
  dsimp only at run
  obtain ⟨priv, s₁, opening, run⟩ := run_bind_eq_some.mp run
  obtain ⟨fd, s₂, lifted, opening⟩ := run_bind_eq_some.mp opening
  obtain ⟨fs, inner, rfl⟩ := liftFs_run lifted
  cases swiftfs2Open_fds inner with
  | failed same =>
      rw [if_pos (by decide)] at opening
      cases opening
      cases run
      exact .failed same
  | took fd f bound free used table _ =>
      rw [if_neg (by omega), run_bind_some (x := modify _) rfl] at opening
      cases opening
      obtain ⟨slot, s₃, alloc, run⟩ := run_bind_eq_some.mp run
      obtain ⟨rfl, found⟩ := fdAlloc_run alloc
      cases slot with
      | none =>
          obtain ⟨ret, u, close, run⟩ := run_bind_eq_some.mp run
          cases run
          exact .full bound free used table found (opsClose_run close)
      | some i =>
          rw [run_bind_some (x := setFile _ _) rfl] at run
          cases run
          exact .took bound free used table found.1 found.2.1 found.2.2

inductive VfsDupRun (s : VfsState σ) (oldfd : Int) : VfsState σ → Prop
  | failed : VfsDupRun s oldfd s
  | made {i j : Nat} (here : oldfd = i) (bound : i < 64) (used : (s.fds i).refcount ≠ 0) (lower : 2 ≤ j) (upper : j < 64)
      (empty : (s.fds j).refcount = 0) : VfsDupRun s oldfd { s with fds := dupInto i j s.fds }

omit [BlockStore σ] in
theorem vfsDup_run (run : (vfsDup fd).run s = some (r, t)) : VfsDupRun s fd t := by
  unfold vfsDup at run
  rw [run_bind_some (x := get) rfl] at run
  cases isOpen : SwiftBSD.Vfs.fdOpen s.fds fd with
  | false =>
      rw [isOpen] at run
      cases run
      exact .failed
  | true =>
      obtain ⟨i, rfl, bound, used⟩ := fdOpen_iff.mp isOpen
      rw [isOpen] at run
      split at run
      · next impossible => cases impossible
      obtain ⟨slot, s₁, alloc, run⟩ := run_bind_eq_some.mp run
      obtain ⟨rfl, found⟩ := fdAlloc_run alloc
      cases slot with
      | none =>
          cases run
          exact .failed
      | some j =>
          cases run
          exact .made rfl bound used found.1 found.2.1 found.2.2

inductive VfsDup2Run (s : VfsState σ) (oldfd newfd : Int) : VfsState σ → Prop
  | failed (refused : ∀ i j : Nat, oldfd = i → newfd = j → i < 64 → j < 64 → (s.fds i).refcount ≠ 0 → j = i) :
      VfsDup2Run s oldfd newfd s
  | made {i j : Nat} (old : oldfd = i) (new : newfd = j) (differ : j ≠ i) (bound : i < 64) (upper : j < 64)
      (used : (s.fds i).refcount ≠ 0) (empty : (s.fds j).refcount ≤ 0) :
      VfsDup2Run s oldfd newfd { s with fds := dupInto i j s.fds }
  | closed {i j : Nat} {u : VfsState σ} (old : oldfd = i) (new : newfd = j) (differ : j ≠ i) (bound : i < 64)
      (upper : j < 64) (used : (s.fds i).refcount ≠ 0) (full : 0 < (s.fds j).refcount) (close : VfsCloseRun s j u) :
      VfsDup2Run s oldfd newfd { u with fds := dupInto i j u.fds }

theorem vfsDup2_run {newfd : Int} (run : (vfsDup2 fd newfd).run s = some (r, t)) : VfsDup2Run s fd newfd t := by
  unfold vfsDup2 at run
  rw [run_bind_some (x := get) rfl] at run
  cases isOpen : SwiftBSD.Vfs.fdOpen s.fds fd with
  | false =>
      rw [isOpen] at run
      cases run
      refine .failed fun i j old _ bound _ used => ?_
      rw [fdOpen_iff.mpr ⟨i, old, bound, used⟩] at isOpen
      cases isOpen
  | true =>
      obtain ⟨i, rfl, bound, used⟩ := fdOpen_iff.mp isOpen
      rw [isOpen] at run
      split at run
      · next impossible => cases impossible
      split at run
      · cases run
        exact .failed fun _ j _ new _ upper _ => by omega
      · next range =>
          obtain ⟨j, rfl⟩ : ∃ j : Nat, newfd = j := ⟨newfd.toNat, by omega⟩
          split at run
          · cases run
            exact .failed fun _ _ old new _ _ _ => by omega
          · next differ =>
              rw [Int.toNat_natCast] at run
              split at run
              · next full =>
                  obtain ⟨_, u, close, run⟩ := run_bind_eq_some.mp run
                  cases run
                  exact .closed rfl rfl (by omega) bound (by omega) used full (vfsClose_run close)
              · next empty =>
                  cases run
                  exact .made rfl rfl (by omega) bound (by omega) used (by omega)

end Close

end SwiftBSD.Proof.Vfs
