import SwiftBSD.Proof.Vfs.Handles

namespace SwiftBSD.Proof.Vfs
open Lib SwiftBSD.Fs SwiftBSD.Vfs

variable {σ : Type} {s t : VfsState σ} {kmalloc : Option Nat}

/-- The ends of one new pipe in two slots that were free; what is written to one is read from the other. -/
structure PipeEnds [BlockStore σ] (s t : VfsState σ) (rfd wfd : Nat) : Prop where
  distinct : rfd ≠ wfd
  free : rfd < 64 ∧ wfd < 64 ∧ (s.fds rfd).refcount = 0 ∧ (s.fds wfd).refcount = 0
  ends : ∃ p, s.pipes p = none ∧ On (t.fds rfd) (.pipeRead, p) ∧ On (t.fds wfd) (.pipeWrite, p)
  others : ∀ i, i ≠ rfd → i ≠ wfd → t.fds i = s.fds i
  carries : ∀ bytes : List UInt8, bytes.length ≤ 4096 → ∃ u v,
    (vfsWrite wfd bytes).run t = some (.done bytes.length [], u) ∧
    (vfsRead rfd (.ofNat bytes.length)).run u = some (.done bytes.length bytes, v)

def PipeContract [BlockStore σ] (s : VfsState σ) (kmalloc : Option Nat) : Prop :=
  ∀ ret fds t, (vfsPipe kmalloc).run s = some ((ret, fds), t) →
    (ret = 0 → ∃ rfd wfd, fds = some (rfd, wfd) ∧ PipeEnds s t rfd wfd) ∧
    ((∀ i j, i < 64 → j < 64 → (s.fds i).refcount = 0 → (s.fds j).refcount = 0 → i = j) → ret = -1 ∧ t.fds = s.fds)

inductive VfsPipeRun (s : VfsState σ) : Option Nat → Int × Option (Nat × Nat) → VfsState σ → Prop
  | noMemory : VfsPipeRun s none (-1, none) s
  | noSlot {p : Nat} (full : ∀ i, 2 ≤ i → i < 64 → (s.fds i).refcount ≠ 0) :
      VfsPipeRun s (some p) (-1, none) { s with pipes := Function.update s.pipes p none }
  | made {p i : Nat} (lower : 2 ≤ i) (upper : i < 64) (free : (s.fds i).refcount = 0) :
      VfsPipeRun s (some p) (0, some (i, i))
        { s with pipes := Function.update s.pipes p (some ⟨.zero, 0, 0, 1, 1⟩),
                 fds := Function.update s.fds i ⟨some .pipeWrite, p, 0, 0, 1⟩ }

theorem vfsPipe_run {result : Int × Option (Nat × Nat)} (run : (vfsPipe kmalloc).run s = some (result, t)) :
    VfsPipeRun s kmalloc result t := by
  unfold vfsPipe at run
  cases kmalloc with
  | none =>
      cases run
      exact .noMemory
  | some p =>
      dsimp only at run
      rw [run_bind_some (x := setPipe _ _) rfl] at run
      obtain ⟨first, s₁, alloc, run⟩ := run_bind_eq_some.mp run
      obtain ⟨rfl, found⟩ := fdAlloc_run alloc
      cases first with
      | none =>
          cases run
          dsimp only
          rw [Function.update_idem]
          exact .noSlot found
      | some i =>
          -- nothing was written in between, so the second search ends where the first did
          dsimp only at run
          rw [run_bind_some alloc] at run
          cases run
          dsimp only
          rw [Function.update_idem]
          exact .made found.1 found.2.1 found.2.2

theorem fdAlloc_eq {found : Option Nat} (h : firstFrom (fun i => (s.fds i).refcount == 0) 2 62 = found) :
    (SwiftBSD.Vfs.fdAlloc : VfsM σ _).run s = some (found, s) := by
  rw [← h]
  rfl

theorem vfsPipe_returns (s : VfsState σ) (kmalloc : Option Nat) : ∃ result t, (vfsPipe kmalloc).run s = some (result, t) := by
  cases kmalloc with
  | none => exact ⟨_, _, rfl⟩
  | some p =>
      have first : (setPipe p (some ⟨.zero, 0, 0, 1, 1⟩) : VfsM σ Unit).run s =
        some ((), { s with pipes := Function.update s.pipes p (some ⟨.zero, 0, 0, 1, 1⟩) }) := rfl
      unfold vfsPipe
      dsimp only
      rw [run_bind_some first]
      generalize { s with pipes := Function.update s.pipes p (some ⟨.zero, 0, 0, 1, 1⟩) } = u
      cases found : firstFrom (fun i => (u.fds i).refcount == 0) 2 62 with
      | none =>
          rw [run_bind_some (fdAlloc_eq found)]
          exact ⟨_, _, rfl⟩
      | some i =>
          rw [run_bind_some (fdAlloc_eq found)]
          dsimp only
          rw [run_bind_some (fdAlloc_eq found)]
          exact ⟨_, _, rfl⟩

/-- The contract is met exactly by the calls that fail. -/
theorem pipe_contract_iff [BlockStore σ] (s : VfsState σ) (kmalloc : Option Nat) :
    PipeContract s kmalloc ↔ kmalloc = none ∨ ∀ i, 2 ≤ i → i < 64 → (s.fds i).refcount ≠ 0 := by
  constructor
  · intro contract
    by_contra both
    obtain ⟨memory, slot⟩ := not_or.mp both
    obtain ⟨result, t, run⟩ := vfsPipe_returns s kmalloc
    cases vfsPipe_run run with
    | noMemory => exact memory rfl
    | noSlot full => exact slot full
    | made lower upper free =>
        obtain ⟨rfd, wfd, same, made⟩ := (contract _ _ _ run).1 rfl
        cases same
        exact made.distinct rfl
  · intro fails ret fds t run
    cases vfsPipe_run run with
    | noMemory => exact ⟨fun zero => absurd zero (by decide), fun _ => ⟨rfl, rfl⟩⟩
    | noSlot full => exact ⟨fun zero => absurd zero (by decide), fun _ => ⟨rfl, rfl⟩⟩
    | made lower upper free =>
        rcases fails with none | full
        · cases none
        · exact (full _ lower upper free).elim

/-- With slot 3 and all those after it free, both ends come to lie in slot 3. -/
theorem pipe_ends_collide : ∃ t, (vfsPipe (some 4096)).run oneFile = some ((0, some (3, 3)), t) ∧
    ¬PipeContract oneFile (some 4096) := by
  refine ⟨_, rfl, fun contract => ?_⟩
  obtain ⟨rfd, wfd, same, made⟩ := (contract _ _ _ rfl).1 rfl
  cases same
  exact made.distinct rfl

end SwiftBSD.Proof.Vfs
