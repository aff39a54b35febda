import SwiftBSD.Proof.Fs.FileRuns
import SwiftBSD.Proof.Vfs.Positions

namespace SwiftBSD.Proof.Vfs
open Lib SwiftBSD.Fs SwiftBSD.Vfs SwiftBSD.Proof.Fs

variable {R : Nat → Prop} {V : Vol} {D : Nat → List (List Rec)} {s : FsState Disk} {v w : VfsState Disk} {flags : UInt32}
  {i j fd p : Nat} {bs : List UInt8}

theorem fdOpen_cursor (vol : HeldVol R s V D) (cursor : (files V).cursor fd = some (i, p)) (inner : fd < 64) :
    SwiftBSD.Fs.fdOpen s.fds fd = true := by
  obtain ⟨inode, -, nonzero, -⟩ := vol.descriptor cursor
  simp only [SwiftBSD.Fs.fdOpen, Bool.and_eq_true, decide_eq_true_eq, bne_iff_ne, Int.toNat_natCast, inode]
  exact ⟨⟨Int.natCast_nonneg _, by omega⟩, nonzero⟩

theorem bytes_setFd (V : Vol) (k : Nat) (f : Fd) : (files (V.setFd k f)).bytes = (files V).bytes := by
  rw [files_setFd, ByteFiles.setCursor_bytes]

def piece (bs : List UInt8) (p n : Nat) : List UInt8 := (bs.drop p).take n

theorem run_readAt {n : UInt32} (vol : HeldVol R s V D) (cursor : (files V).cursor fd = some (i, p)) (bytes : (files V).bytes i = some bs)
    (inner : fd < 64) (readable : (s.fds fd).flags ≠ oWronly) (word : p + n.toNat < 2 ^ 32) :
    ∃ u, (swiftfs2Read fd n.toNat).run s = some ((((piece bs p n.toNat).length : Int), piece bs p n.toNat), u) ∧
      HeldVol R u (V.setFd fd { V.fds fd with pos := p + (piece bs p n.toNat).length }) D := by
  obtain ⟨inode, pos, -, plain⟩ := vol.descriptor cursor
  have opened := fdOpen_cursor vol cursor inner
  have careful : Careful s (.read fd n) := careful_read (by rwa [pos])
  have safe := careful.1.safe vol.rep vol.consistent
  obtain ⟨r, u, run⟩ := vol.call careful
  obtain ⟨V', D', rep, consistent, -, read, rfl⟩ := exec_post vol.rep vol.consistent safe run
  obtain ⟨⟨value, out⟩, u', inside, result⟩ := run_bind_eq_some.mp run
  cases result
  have word' : (V.fds fd).pos + n.toNat < 2 ^ 32 := by rwa [← vol.rep.fds, pos]
  have moves := read.seek word'
  rw [vol.rep.fds] at opened readable
  obtain ⟨es, reads, moved⟩ := read.moved vol.consistent vol.held word' fun _ => ⟨opened, readable⟩
  cases reads with
  | refused _ _ why => exact (why.elim (fun shut => by rw [opened] at shut; cases shut) readable).elim
  | other other =>
      rw [Int.toNat_natCast, ← vol.rep.fds, inode, ← vol.rep.inode i (inode ▸ vol.rep.fds ▸ vol.consistent.fds fd), plain] at other
      cases other
  | read _ length =>
      rw [Int.toNat_natCast] at moved moves
      obtain ⟨out_eq, -, -⟩ := moved.run.single.read_at cursor bytes
      obtain rfl : out = piece bs p n.toNat := out_eq
      obtain rfl : value = ((piece bs p n.toNat).length : Int) := length
      have pos' : (V.fds fd).pos = p := by rw [← vol.rep.fds, pos]
      dsimp only at moves
      rw [pos'] at moves
      rw [moves] at rep consistent moved
      exact ⟨_, inside, rep, consistent, moved.held⟩

theorem files_moved (cursor : (files V).cursor fd = some (i, p)) (q : Nat) :
    files (V.setFd fd { V.fds fd with pos := q }) = (files V).setCursor fd (some (i, q)) := by
  obtain ⟨inode, -, nonzero, plain⟩ := files_cursor_some cursor
  rw [files_setFd, cursorOf]
  dsimp only
  rw [inode, if_pos ⟨nonzero, plain⟩]

theorem run_openAt {path : CString} (vol : HeldVol R s V D) (named : resolve V D path.bytes = some i) (bytes : (files V).bytes i = some bs)
    (free : ∃ k, 2 ≤ k ∧ k < 64 ∧ (s.fds k).inode = 0) :
    ∃ (fd : Nat) (u : FsState Disk), (swiftfs2Open path.bytes oRdonly).run s = some ((fd : Int), u) ∧ fd < 64 ∧ (V.fds fd).inode = 0 ∧
      HeldVol R u (V.setFd fd ⟨i, 0, oRdonly, false⟩) D := by
  obtain ⟨hi, plain, -⟩ := files_bytes_some bytes
  have safe : Call.Safe dirModes V D (.open_ path oRdonly) := fun none => by cases named.symm.trans none
  obtain ⟨r, u, run⟩ := exec_isSome vol.rep vol.consistent safe
  obtain ⟨V', D', rep, consistent, -, post⟩ := exec_post vol.rep vol.consistent safe run
  obtain ⟨value, u', inside, result⟩ := run_bind_eq_some.mp run
  cases result
  cases post with
  | missing none => cases named.symm.trans none
  | notCreated none => cases named.symm.trans none
  | created none => cases named.symm.trans none
  | existing found rest =>
      obtain rfl := Option.some.inj (named.symm.trans found)
      have opens := rest
      generalize same : (Result.ofValue value).value = value' at opens
      have same : value = value' := same
      subst same
      cases opens with
      | denied writing => exact absurd (by decide) writing
      | noFd _ _ full =>
          obtain ⟨k, lower, upper, unused⟩ := free
          exact absurd (by rw [← vol.rep.fds, unused]) (full k lower upper)
      | opened _ trunc lower upper unused =>
          cases trunc with
          | cut wanted => exact absurd (by decide) wanted
          | kept => exact ⟨_, u, inside, upper, unused, rep, consistent, (vol.held.start hi (Nat.pos_iff_ne_zero.mp (resolve_pos named)) plain unused).held⟩

theorem run_closeAt (vol : HeldVol R s V D) (cursor : (files V).cursor fd = some (i, p)) (inner : fd < 64) :
    ∃ u, (swiftfs2Close fd).run s = some (0, u) ∧ HeldVol R u (V.setFd fd .zero) D := by
  have opened := fdOpen_cursor vol cursor inner
  have safe : Call.Safe dirModes V D (.close fd) := trivial
  obtain ⟨r, u, run⟩ := exec_isSome vol.rep vol.consistent safe
  obtain ⟨V', D', rep, consistent, rfl, post⟩ := exec_post vol.rep vol.consistent safe run
  obtain ⟨value, u', inside, result⟩ := run_bind_eq_some.mp run
  cases result
  rcases post with ⟨-, -, shut⟩ | ⟨result, rfl⟩
  · rw [← vol.rep.fds, opened] at shut
    cases shut
  · rw [Int.toNat_natCast] at rep consistent
    obtain rfl : value = 0 := congrArg Result.value result
    exact ⟨u, inside, rep, consistent, (vol.held.stop fd).held⟩

/-- Slot `j` is on file `i` through descriptor `fd`, with `p` bytes behind it. -/
structure OnFile (v : VfsState Disk) (V : Vol) (flags : UInt32) (j fd i p : Nat) : Prop where
  cursor : (files V).cursor fd = some (i, p)
  inner : fd < 64
  mode : (v.fs.fds fd).flags = flags
  outer : j < 64
  slot : v.fds j = ⟨some .swiftfs, fd, .ofNat p, flags, 1⟩

section Slot
variable (on : OnFile v V flags j fd i p) (vol : HeldVol R v.fs V D)
include on vol

theorem OnFile.denotes : Denotes v j i where
  bound := on.outer
  used := by
    rw [on.slot]
    exact one_ne_zero
  ops := by rw [on.slot]
  descriptor := by
    rw [on.slot]
    exact on.inner
  inode := by
    rw [on.slot]
    exact (vol.descriptor on.cursor).1
  live := (vol.descriptor on.cursor).2.2.1

theorem OnFile.seek_eq (word : p < 2 ^ 32) : seek v j = v.fs := by
  have pos := (vol.descriptor on.cursor).2.1
  have number : (UInt64.ofNat p).toNat = p := UInt64.toNat_ofNat_of_lt' (by change p < 2 ^ 64; omega)
  unfold seek setPos
  rw [on.slot]
  dsimp only
  rw [number, Nat.mod_eq_of_lt word, ← pos]
  exact congrArg (fun fds => ({ v.fs with fds } : FsState Disk)) (Function.update_eq_self fd v.fs.fds)

theorem OnFile.advance {d : Nat} {u : FsState Disk} (vol' : HeldVol R u (V.setFd fd { V.fds fd with pos := p + d }) D) :
    OnFile (moved v j d u) (V.setFd fd { V.fds fd with pos := p + d }) flags j fd i (p + d) := by
  have cursor : (files (V.setFd fd { V.fds fd with pos := p + d })).cursor fd = some (i, p + d) := by
    rw [files_moved on.cursor]
    exact Function.update_self _ _ _
  have pos := (vol'.descriptor cursor).2.1
  refine ⟨cursor, on.inner, ?_, on.outer, ?_⟩
  · change (u.fds fd).flags = flags
    have here : u.fds fd = { V.fds fd with pos := p + d } := by
      rw [vol'.rep.fds]
      exact Function.update_self _ _ _
    rw [here, ← on.mode, vol.rep.fds]
  · unfold SwiftBSD.Proof.Vfs.moved
    dsimp only
    rw [Function.update_self, on.slot]
    dsimp only
    rw [pos]
    split
    · rfl
    · next none =>
        obtain rfl : d = 0 := by omega
        rfl

theorem OnFile.read {n : UInt32} (bytes : (files V).bytes i = some bs) (readable : flags ≠ oWronly) (word : p + n.toNat < 2 ^ 32) :
    ∃ u, (vfsRead j n).run v = some (.done (piece bs p n.toNat).length (piece bs p n.toNat), moved v j (piece bs p n.toNat).length u) ∧
      HeldVol R u (V.setFd fd { V.fds fd with pos := p + (piece bs p n.toNat).length }) D := by
  have seeks := on.seek_eq vol (by omega)
  obtain ⟨u, run, vol'⟩ := run_readAt vol on.cursor bytes on.inner (by rwa [on.mode]) word
  refine ⟨u, run_vfsRead (on.denotes vol) ?_, vol'⟩
  rw [seeks, on.slot]
  exact run

theorem OnFile.reads {n : UInt32} (bytes : (files V).bytes i = some bs) (readable : flags ≠ oWronly) (word : p + n.toNat < 2 ^ 32) :
    ∃ w V', (vfsRead j n).run v = some (.done (piece bs p n.toNat).length (piece bs p n.toNat), w) ∧
      V' = V.setFd fd { V.fds fd with pos := p + (piece bs p n.toNat).length } ∧ HeldVol R w.fs V' D ∧
      OnFile w V' flags j fd i (p + (piece bs p n.toNat).length) ∧ ∀ k ≠ j, w.fds k = v.fds k := by
  obtain ⟨u, run, vol'⟩ := on.read vol bytes readable word
  exact ⟨_, _, run, rfl, vol', on.advance vol vol', fun k other => Function.update_of_ne other _ _⟩

omit on vol in
theorem run_opsClose {u : FsState Disk} (run : (swiftfs2Close fd).run v.fs = some (0, u)) :
    (opsClose .swiftfs fd).run v = some (0, { v with fs := u, closed := v.closed ++ [(.swiftfs, fd)] }) := by
  unfold opsClose
  rw [run_bind_some (x := modify _) rfl]
  dsimp only
  exact liftFs_of_run run

theorem OnFile.close : ∃ w, (vfsClose j).run v = some (0, w) ∧ HeldVol R w.fs (V.setFd fd .zero) D ∧
    w.fds = Function.update v.fds j ⟨none, 0, 0, 0, 0⟩ ∧ w.fsList = v.fsList := by
  obtain ⟨u, run, vol'⟩ := run_closeAt vol on.cursor on.inner
  have opened := (on.denotes vol).fdOpen
  have counted : (opsClose .swiftfs fd).run { v with fds := Function.update v.fds j { v.fds j with refcount := (v.fds j).refcount - 1 } } = _ :=
    run_opsClose run
  rw [on.slot] at counted
  unfold vfsClose
  rw [run_bind_some (x := get) rfl, opened, if_neg (by decide)]
  dsimp only
  rw [Int.toNat_natCast, on.slot, run_bind_some (x := setFile _ _) rfl]
  dsimp only
  rw [if_neg (by omega), run_bind_some counted]
  exact ⟨_, rfl, vol', Function.update_idem _ _ _, rfl⟩

theorem OnFile.beside {fd' : Nat} {f : Fd} (vol' : HeldVol R w.fs (V.setFd fd' f) D) (other : fd ≠ fd') (slot : w.fds j = v.fds j) :
    OnFile w (V.setFd fd' f) flags j fd i p := by
  refine ⟨?_, on.inner, ?_, on.outer, slot.trans on.slot⟩
  · rw [files_setFd]
    exact (Function.update_of_ne other _ _).trans on.cursor
  · rw [← on.mode, vol.rep.fds, vol'.rep.fds]
    exact congrArg Fd.flags (Function.update_of_ne other _ _)

end Slot

theorem run_vfsOpenAt {path : CString} (registered : v.fsList = [.swiftfs]) (vol : HeldVol R v.fs V D) (named : resolve V D path.bytes = some i)
    (bytes : (files V).bytes i = some bs) (inner : ∃ k, 2 ≤ k ∧ k < 64 ∧ (v.fs.fds k).inode = 0)
    (outer : ∃ k, 2 ≤ k ∧ k < 64 ∧ (v.fds k).refcount = 0) :
    ∃ (j fd : Nat) (w : VfsState Disk), (vfsOpen path.bytes oRdonly).run v = some ((j : Int), w) ∧
      HeldVol R w.fs (V.setFd fd ⟨i, 0, oRdonly, false⟩) D ∧ OnFile w (V.setFd fd ⟨i, 0, oRdonly, false⟩) oRdonly j fd i 0 ∧
      w.fsList = v.fsList ∧ (v.fds j).refcount = 0 ∧ (V.fds fd).inode = 0 ∧
      w.fds = Function.update v.fds j ⟨some .swiftfs, fd, 0, oRdonly, 1⟩ := by
  obtain ⟨hi, plain, -⟩ := files_bytes_some bytes
  obtain ⟨fd, u, run, small, unused, vol'⟩ := run_openAt vol named bytes inner
  obtain ⟨j, found, upper, free⟩ : ∃ j, firstFrom (fun k => (v.fds k).refcount == 0) 2 62 = some j ∧ j < 64 ∧ (v.fds j).refcount = 0 := by
    obtain ⟨k, lower, upper, free⟩ := outer
    cases found : firstFrom (fun k => (v.fds k).refcount == 0) 2 62 with
    | none =>
        have used := firstFrom_none.mp found k lower (by omega)
        rw [free] at used
        cases used
    | some j =>
        have := (firstFrom_some found).2.1
        exact ⟨j, rfl, by omega, beq_iff_eq.mp (firstFrom_some found).2.2.1⟩
  have cursor : (files (V.setFd fd ⟨i, 0, oRdonly, false⟩)).cursor fd = some (i, 0) := by
    rw [files_setFd, cursorOf, if_pos ⟨Nat.pos_iff_ne_zero.mp (resolve_pos named), plain⟩]
    exact Function.update_self _ _ _
  have here : u.fds fd = ⟨i, 0, oRdonly, false⟩ := by
    rw [vol'.rep.fds]
    exact Function.update_self _ _ _
  refine ⟨j, fd, { v with
      fs := u
      opened := v.opened ++ [(.swiftfs, fd)]
      fds := Function.update v.fds j ⟨some .swiftfs, fd, 0, oRdonly, 1⟩ }, ?_, vol', ⟨cursor, small, congrArg Fd.flags here, upper,
    Function.update_self _ _ _⟩, rfl, free, unused, rfl⟩
  have opens : (opsOpen .swiftfs path.bytes oRdonly).run v = some (some fd, { v with fs := u, opened := v.opened ++ [(.swiftfs, fd)] }) := by
    unfold opsOpen
    dsimp only
    rw [run_bind_some (liftFs_of_run run), if_neg (by omega), run_bind_some (x := modify _) rfl, Int.toNat_natCast]
    rfl
  have table (all : List Ops) (only : all = [.swiftfs]) : (vfsOpenIn path.bytes oRdonly all).run v = some ((j : Int), { v with
      fs := u
      opened := v.opened ++ [(.swiftfs, fd)]
      fds := Function.update v.fds j ⟨some .swiftfs, fd, 0, oRdonly, 1⟩ }) := by
    subst only
    unfold vfsOpenIn
    rw [run_bind_some opens]
    dsimp only
    unfold SwiftBSD.Vfs.fdAlloc
    rw [bind_assoc, run_bind_some (x := get) rfl, pure_bind, found]
    rfl
  unfold vfsOpen
  rw [run_bind_some (x := get) rfl]
  exact table _ registered

theorem cursors_independent_twice : ∃ (s a b c d e t : VfsState Disk) (j k : Nat) (file : Nat → Nat), Fresh s ∧ j ≠ k ∧
    (vfsOpen filePath.bytes oRdonly).run s = some ((j : Int), a) ∧ (vfsOpen filePath.bytes oRdonly).run a = some ((k : Int), b) ∧
    (vfsRead j 1).run b = some (.done 1 [0x68], c) ∧ (vfsRead k 2).run c = some (.done 2 [0x68, 0x69], d) ∧
    (vfsClose k).run d = some (0, e) ∧ (vfsLseek j 0 0).run e = some (0, t) ∧ SlotRun s t file ∧ Cursors t file ∧ OwnPosition t := by
  obtain ⟨img, s₀, fs, t', i, made, mounted, reach, found, file, stored, free⟩ := storedFile_128 [0x68, 0x69] (by decide)
  obtain ⟨V, D, vol⟩ := reachBoot_held (mkfs_held (by decide) made mounted) reach
  obtain ⟨named, bytes⟩ := vol.namedFile found file
  rw [stored] at bytes
  obtain ⟨j, fd, a, first, vol₁, on₁, registered, -, -, slots₁⟩ := run_vfsOpenAt (v := freshOn fs) rfl vol named bytes
    ⟨2, by decide, by decide, free 2⟩ ⟨2, by decide, by decide, rfl⟩
  have others (n : Nat) (other : n ≠ fd) : (a.fs.fds n).inode = 0 := by
    rw [vol₁.rep.fds]
    change (Function.update V.fds fd _ n).inode = 0
    rw [Function.update_of_ne other, ← vol.rep.fds]
    exact free n
  have unused : ∃ n, 2 ≤ n ∧ n < 64 ∧ (a.fs.fds n).inode = 0 := by
    by_cases two : fd = 2
    · exact ⟨3, by decide, by decide, others 3 (by omega)⟩
    · exact ⟨2, by decide, by decide, others 2 (by omega)⟩
  have room : ∃ n, 2 ≤ n ∧ n < 64 ∧ (a.fds n).refcount = 0 := by
    rw [slots₁]
    by_cases two : j = 2
    · exact ⟨3, by decide, by decide, by rw [Function.update_of_ne (by omega)]; rfl⟩
    · exact ⟨2, by decide, by decide, by rw [Function.update_of_ne (by omega)]; rfl⟩
  obtain ⟨k, fd', b, second, vol₂, on₂, -, clear, descriptor, slots₂⟩ := run_vfsOpenAt registered vol₁
    (show resolve (V.setFd fd ⟨i, 0, oRdonly, false⟩) D filePath.bytes = some i from named) (by rw [bytes_setFd]; exact bytes) unused room
  have apart : j ≠ k := by
    rintro rfl
    rw [slots₁, Function.update_self] at clear
    cases clear
  have apart' : fd ≠ fd' := by
    rintro rfl
    have live := (vol₁.descriptor on₁.cursor).2.2.1
    have zero : i = 0 := by
      change (Function.update V.fds fd _ fd).inode = 0 at descriptor
      rwa [Function.update_self] at descriptor
    exact live zero
  -- the first slot is read; the second is still at the start
  have on₁' := on₁.beside vol₁ vol₂ apart' (by rw [slots₂, Function.update_of_ne apart])
  obtain ⟨c, V₁, readOne, rfl, vol₃, on₁', same⟩ := on₁'.reads vol₂ (n := 1) (by rw [bytes_setFd, bytes_setFd]; exact bytes) (by decide) (by decide)
  have on₂' := on₂.beside vol₂ vol₃ apart'.symm (same k apart.symm)
  obtain ⟨d, V₂, readTwo, rfl, vol₄, on₂', same⟩ := on₂'.reads vol₃ (n := 2) (by rw [bytes_setFd, bytes_setFd, bytes_setFd]; exact bytes)
    (by decide) (by decide)
  have on₁' := on₁'.beside vol₃ vol₄ apart' (same j apart)
  obtain ⟨e, closes, vol₅, slots₅, -⟩ := on₂'.close vol₄
  have on₁' := on₁'.beside vol₄ vol₅ apart' (by rw [slots₅, Function.update_of_ne apart])
  have seeks := run_vfsLseek (on₁'.denotes vol₅) 0 0
  rw [show seekTo (e.fds j).pos 0 0 = some 0 from rfl] at seeks
  dsimp only at seeks
  rw [show toInt (0 : UInt64).toUInt32 = 0 by decide] at seeks
  have run : SlotRun (freshOn fs) _ _ := .step (c := .lseek j 0 0) (.step (c := .close k) (.step (c := .read k 2) (.step (c := .read j 1)
    (.step (c := .open_ filePath oRdonly) (.step (c := .open_ filePath oRdonly) .start (run_bind_some first)) (run_bind_some second)) readOne) readTwo)
    (run_bind_some closes)) (run_bind_some seeks)
  exact ⟨freshOn fs, a, b, c, d, e, _, j, k, _, freshOn_fresh free, apart, first, second, readOne, readTwo, closes, seeks, run,
    cursors_independent (freshOn_fresh free) run⟩

end SwiftBSD.Proof.Vfs
