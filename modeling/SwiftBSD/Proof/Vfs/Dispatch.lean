import SwiftBSD.Vfs.Dispatch
import SwiftBSD.Proof.Vfs.Denotes
import SwiftBSD.Proof.Vfs.Ends

namespace SwiftBSD.Proof.Vfs
open Lib SwiftBSD.Fs SwiftBSD.Vfs

variable {σ : Type}

def Kind (f : File) : Prop := f.ops = some .serial ∨ f.ops = some .swiftfs ∨ f.ops = some .pipeWrite

/-- Every open slot has a table, and it is not that of a read end. -/
def Kinds (fds : Nat → File) : Prop := ∀ i, i < 64 → (fds i).refcount ≠ 0 → Kind (fds i)

section Slots
variable {fds : Nat → File} {f : File} {i j : Nat}

theorem Kinds.update (kinds : Kinds fds) (kind : f.refcount ≠ 0 → Kind f) : Kinds (Function.update fds i f) := by
  intro k small used
  by_cases same : k = i
  · subst same
    rw [Function.update_self] at used ⊢
    exact kind used
  · rw [Function.update_of_ne same] at used ⊢
    exact kinds k small used

theorem kinds_vfsInit (fds : Nat → File) : Kinds (vfsInit fds) := by
  intro i small used
  unfold vfsInit at used ⊢
  by_cases standard : i < 2
  · rw [if_pos standard]
    exact .inl rfl
  · rw [if_neg standard, if_pos small] at used
    exact absurd rfl used

theorem Kinds.dupInto (kinds : Kinds fds) (differ : j ≠ i) (bound : i < 64) (used : (fds i).refcount ≠ 0) :
    Kinds (SwiftBSD.Vfs.dupInto i j fds) := by
  intro k small open_
  rw [dupInto_apply differ] at open_ ⊢
  split
  · exact kinds i bound used
  split
  · exact kinds i bound used
  · next old new =>
      rw [if_neg old, if_neg new] at open_
      exact kinds k small open_

end Slots

section Calls
variable {s t : VfsState σ} {fd : Int}

structure Sound (s : VfsState σ) : Prop where
  registered : s.fsList = [.swiftfs]
  kinds : Kinds s.fds

theorem closeRun_keeps {ops : Ops} {priv : Nat} (run : CloseRun s ops priv t) : t.fsList = s.fsList ∧ t.fds = s.fds := by
  cases run <;> exact ⟨rfl, rfl⟩

theorem Sound.close (sound : Sound s) (run : VfsCloseRun s fd t) : Sound t := by
  cases run with
  | bad => exact sound
  | @counted i here bound more => exact ⟨sound.registered, sound.kinds.update fun _ => sound.kinds i bound (by omega)⟩
  | @closed i ops u here bound used last table close =>
      obtain ⟨registered, fds⟩ := closeRun_keeps close
      refine ⟨registered.trans sound.registered, ?_⟩
      dsimp only at fds ⊢
      rw [fds, Function.update_idem]
      exact sound.kinds.update fun open_ => absurd rfl open_

theorem Sound.opened (sound : Sound s) (run : VfsOpenRun s t) : Sound t := by
  cases run with
  | failed => exact ⟨sound.registered, sound.kinds⟩
  | full bound free used table none close =>
      obtain ⟨registered, fds⟩ := closeRun_keeps close
      refine ⟨registered.trans sound.registered, ?_⟩
      rw [fds]
      exact sound.kinds
  | took => exact ⟨sound.registered, sound.kinds.update fun _ => .inr (.inl rfl)⟩

theorem Sound.dup (sound : Sound s) (run : VfsDupRun s fd t) : Sound t := by
  cases run with
  | failed => exact sound
  | @made i j here bound used lower upper empty =>
      have differ : j ≠ i := by
        rintro rfl
        exact used empty
      exact ⟨sound.registered, sound.kinds.dupInto differ bound used⟩

theorem Sound.dup2 {newfd : Int} (sound : Sound s) (run : VfsDup2Run s fd newfd t) : Sound t := by
  cases run with
  | failed => exact sound
  | made old new differ bound upper used => exact ⟨sound.registered, sound.kinds.dupInto differ bound used⟩
  | @closed i j u old new differ bound upper used full close =>
      have closed := sound.close close
      refine ⟨closed.registered, closed.kinds.dupInto differ bound ?_⟩
      rw [close.others (i := i) (by omega)]
      exact used

theorem Sound.pipe {kmalloc : Option Nat} {r : Int × Option (Nat × Nat)} (sound : Sound s) (run : VfsPipeRun s kmalloc r t) : Sound t := by
  cases run with
  | noMemory => exact sound
  | noSlot => exact ⟨sound.registered, sound.kinds⟩
  | made => exact ⟨sound.registered, sound.kinds.update fun _ => .inr (.inr rfl)⟩

theorem Sound.call [BlockStore σ] {c : VfsCall} {r : Int} (sound : Sound s) (run : c.exec.run s = some (r, t)) : Sound t := by
  cases c with
  | open_ path flags => exact sound.opened (vfsOpen_run sound.registered run)
  | dup oldfd => exact sound.dup (vfsDup_run run)
  | dup2 oldfd newfd => exact sound.dup2 (vfsDup2_run run)
  | close fd => exact sound.close (vfsClose_run run)

end Calls

section Runs
variable [BlockStore σ] {s t : Tables σ} {p : Nat} {fds : Nat → File}

structure AllSound (s : Tables σ) : Prop where
  registered : s.vfs.fsList = [.swiftfs]
  kinds : ∀ p fds, s.table p = some fds → Kinds fds

omit [BlockStore σ] in
theorem AllSound.update (sound : AllSound s) (kinds : Kinds fds) {vfs : VfsState σ} (registered : vfs.fsList = [.swiftfs]) :
    AllSound ⟨vfs, Function.update s.table p (some fds)⟩ := by
  refine ⟨registered, fun q fds' here => ?_⟩
  dsimp only at here
  by_cases same : q = p
  · subst same
    rw [Function.update_self] at here
    exact Option.some.inj here ▸ kinds
  · rw [Function.update_of_ne same] at here
    exact sound.kinds q fds' here

theorem AllSound.step (sound : AllSound s) (step : TablesStep s t) : AllSound t := by
  cases step with
  | init p fds => exact sound.update (kinds_vfsInit fds) sound.registered
  | @call p fds _ _ _ here run =>
      have before : Sound { s.vfs with fds } := ⟨sound.registered, sound.kinds p fds here⟩
      have after := before.call run
      exact sound.update after.kinds after.registered
  | @pipe p fds _ _ _ here run =>
      have before : Sound { s.vfs with fds } := ⟨sound.registered, sound.kinds p fds here⟩
      have after := before.pipe (vfsPipe_run run)
      exact sound.update after.kinds after.registered
  | fork child here => exact sound.update (sound.kinds _ _ here) sound.registered

theorem tablesRun_sound (run : TablesRun s) : AllSound s := by
  induction run with
  | start registered => exact ⟨registered, fun p fds here => by cases here⟩
  | step before step ih => exact ih.step step

/-- A pointer that is called is not null, and an operation that the kind of the descriptor lacks returns -1. -/
structure Dispatches (fds : Nat → File) (r : Request) (fd : Int) : Prop where
  pointer : target fds r fd ≠ .null
  lacks : ∀ ops, SwiftBSD.Vfs.fdOpen fds fd = true → (fds fd.toNat).ops = some ops → ops.sets r = false → target fds r fd = .returns (-1)

def OnPipe (fds : Nat → File) (fd : Int) : Prop := SwiftBSD.Vfs.fdOpen fds fd = true ∧ (fds fd.toNat).ops = some .pipeWrite

omit [BlockStore σ] in
theorem Kinds.dispatches_iff (kinds : Kinds fds) (r : Request) (fd : Int) :
    Dispatches fds r fd ↔ ¬(OnPipe fds fd ∧ (r = .read ∨ r = .fstat)) := by
  cases isOpen : SwiftBSD.Vfs.fdOpen fds fd with
  | false =>
      refine ⟨fun _ both => ?_, fun _ => ⟨?_, fun ops open_ => ?_⟩⟩
      · rw [both.1.1] at isOpen
        cases isOpen
      · unfold target
        rw [isOpen, if_pos (by decide)]
        nofun
      · rw [isOpen] at open_
        cases open_
  | true =>
      obtain ⟨i, rfl, bound, used⟩ := fdOpen_iff.mp isOpen
      have kind := kinds i bound used
      have goes {ops : Ops} (here : (fds i).ops = some ops) (sets : ops.sets r = true) : target fds r i ≠ .null := by
        unfold target
        rw [isOpen, if_neg (by decide)]
        split
        · nofun
        · rw [Int.toNat_natCast, here]
          dsimp only
          rw [if_pos sets]
          nofun
      have all {ops : Ops} (here : (fds i).ops = some ops) (sets : ops.sets r = true) : Dispatches fds r i := by
        refine ⟨goes here sets, fun ops' _ here' lacks => ?_⟩
        rw [Int.toNat_natCast, here] at here'
        rw [← Option.some.inj here', sets] at lacks
        cases lacks
      have other {ops : Ops} (here : (fds i).ops = some ops) (ne : ops ≠ .pipeWrite) : ¬(OnPipe fds i ∧ (r = .read ∨ r = .fstat)) := by
        rintro ⟨⟨-, pipe⟩, -⟩
        rw [Int.toNat_natCast, here] at pipe
        exact ne (Option.some.inj pipe)
      rcases kind with serial | swiftfs | pipe
      · exact iff_of_true (all serial rfl) (other serial (by decide))
      · exact iff_of_true (all swiftfs rfl) (other swiftfs (by decide))
      · have onPipe : OnPipe fds i := ⟨isOpen, by rwa [Int.toNat_natCast]⟩
        have null (open_ : r ≠ .close) (lacks : Ops.pipeWrite.sets r = false) : target fds r i = .null := by
          unfold target
          rw [isOpen, if_neg (by decide), if_neg fun both => open_ both.1, Int.toNat_natCast, pipe]
          dsimp only
          rw [if_neg (by rw [lacks]; decide), if_neg open_]
        cases r with
        | read => exact iff_of_false (fun ok => ok.pointer (null (by decide) rfl)) fun fine => fine ⟨onPipe, .inl rfl⟩
        | fstat => exact iff_of_false (fun ok => ok.pointer (null (by decide) rfl)) fun fine => fine ⟨onPipe, .inr rfl⟩
        | write => exact iff_of_true (all pipe rfl) fun both => by rcases both.2 with same | same <;> cases same
        | close => exact iff_of_true (all pipe rfl) fun both => by rcases both.2 with same | same <;> cases same

/-- In every table that the calls and `fork` can make, a call goes to a null pointer if and only if it reads or asks for the `stat` of a
pipe. -/
theorem dispatch_iff (run : TablesRun s) (here : s.table p = some fds) (r : Request) (fd : Int) :
    Dispatches fds r fd ↔ ¬(OnPipe fds fd ∧ (r = .read ∨ r = .fstat)) :=
  ((tablesRun_sound run).kinds p fds here).dispatches_iff r fd

end Runs

def noTables : Tables Disk := ⟨{ oneFile with fs := FsState.boot ⟨fun _ => .zero⟩ fun _ => true, opened := [] }, fun _ => none⟩

def firstTable : Tables Disk := ⟨noTables.vfs, Function.update noTables.table 0 (some (vfsInit fun _ => ⟨none, 0, 0, 0, 0⟩))⟩

theorem firstTable_run : TablesRun firstTable := .step (.start rfl) (.init 0 _)

/-- The ends of a pipe are in a table that `vfs_pipe` makes. -/
theorem dispatch_iff_pipe : ∃ (s : Tables Disk) (fds : Nat → File), TablesRun s ∧ s.table 0 = some fds ∧ OnPipe fds 2 ∧
    (Dispatches fds .close 2 ↔ ¬(OnPipe fds 2 ∧ (Request.close = .read ∨ Request.close = .fstat))) := by
  have here : firstTable.table 0 = some (vfsInit fun _ => ⟨none, 0, 0, 0, 0⟩) := rfl
  have step : TablesStep firstTable _ := @TablesStep.pipe Disk _ _ 0 _ (some 4096) _ _ here rfl
  have run := firstTable_run.step step
  exact ⟨_, _, run, rfl, ⟨rfl, rfl⟩, dispatch_iff (p := 0) run rfl .close 2⟩

/-- After `vfs_pipe` the descriptor that it names for reading has no `read`. -/
theorem pipe_read_null : ∃ (s : Tables Disk) (fds : Nat → File), TablesRun s ∧ s.table 0 = some fds ∧ target fds .read 2 = .null ∧
    ¬Dispatches fds .read 2 := by
  have here : firstTable.table 0 = some (vfsInit fun _ => ⟨none, 0, 0, 0, 0⟩) := rfl
  have step : TablesStep firstTable _ := @TablesStep.pipe Disk _ _ 0 _ (some 4096) _ _ here rfl
  exact ⟨_, _, .step firstTable_run step, rfl, rfl, fun ok => ok.pointer rfl⟩

end SwiftBSD.Proof.Vfs
