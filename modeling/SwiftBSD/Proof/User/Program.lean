import SwiftBSD.Proof.Sched.Process
import SwiftBSD.User.Exec

namespace SwiftBSD.Proof.User
open Lib SwiftBSD.Fs SwiftBSD.Vfs SwiftBSD.Sched SwiftBSD.User

variable {σ α : Type} [BlockStore σ] {r fd : Int}

section Slots
variable {s t : VfsState σ}

def Openable (f : File) : Prop := f.ops = some .serial ∨ f.ops = some .swiftfs

theorem opsOpen_fds {ops : Ops} {path : List UInt8} {flags : UInt32} {priv : Option Nat}
    (run : (opsOpen ops path flags).run s = some (priv, t)) : t.fds = s.fds ∧ (ops = .serial ∨ ops = .swiftfs) := by
  unfold opsOpen at run
  cases ops with
  | serial =>
      cases run
      exact ⟨rfl, .inl rfl⟩
  | swiftfs =>
      dsimp only at run
      obtain ⟨fd, u, opening, run⟩ := run_bind_eq_some.mp run
      obtain ⟨fs, -, rfl⟩ := SwiftBSD.Proof.Vfs.liftFs_run opening
      split at run
      · cases run
        exact ⟨rfl, .inr rfl⟩
      · cases run
        exact ⟨rfl, .inr rfl⟩
  | pipeRead => cases run
  | pipeWrite => cases run

inductive OpenSlot (fds : Nat → File) : Int → (Nat → File) → Prop
  | failed : OpenSlot fds (-1) fds
  | took {i : Nat} {f : File} (bound : i < 64) (free : (fds i).refcount = 0) (used : f.refcount = 1)
      (openable : Openable f) : OpenSlot fds i (Function.update fds i f)

theorem vfsOpenIn_slot {path : List UInt8} {flags : UInt32} {all : List Ops}
    (run : (vfsOpenIn path flags all).run s = some (r, t)) : OpenSlot s.fds r t.fds := by
  induction all generalizing s with
  | nil =>
      cases run
      exact .failed
  | cons ops rest ih =>
      unfold vfsOpenIn at run
      obtain ⟨priv, u, opening, run⟩ := run_bind_eq_some.mp run
      obtain ⟨same, kind⟩ := opsOpen_fds opening
      cases priv with
      | none =>
          rw [← same]
          exact ih run
      | some priv =>
          dsimp only at run
          obtain ⟨found, v, alloc, run⟩ := run_bind_eq_some.mp run
          obtain ⟨rfl, slot⟩ := SwiftBSD.Proof.Vfs.fdAlloc_run alloc
          cases found with
          | none =>
              dsimp only at run
              obtain ⟨_, w, close, run⟩ := run_bind_eq_some.mp run
              cases run
              have kept : t.fds = v.fds := by
                cases SwiftBSD.Proof.Vfs.opsClose_run close <;> rfl
              rw [kept, same]
              exact .failed
          | some i =>
              cases run
              obtain ⟨lower, upper, free⟩ := slot
              rw [← same]
              refine .took upper free rfl ?_
              rcases kind with rfl | rfl
              · exact .inl rfl
              · exact .inr rfl

theorem swRead_fds {priv sz : Nat} {pos : UInt64} {result : Int × List UInt8 × UInt64}
    (run : (swRead priv sz pos).run s = some (result, t)) : t.fds = s.fds := by
  unfold swRead at run
  obtain ⟨_, u, moved, run⟩ := run_bind_eq_some.mp run
  obtain ⟨fs, -, rfl⟩ := SwiftBSD.Proof.Vfs.liftFs_run moved
  obtain ⟨⟨ret, bytes⟩, v, read, run⟩ := run_bind_eq_some.mp run
  obtain ⟨fs', -, rfl⟩ := SwiftBSD.Proof.Vfs.liftFs_run read
  cases run
  rfl

omit [BlockStore σ] in
theorem serRead_fds {sz : Nat} {result : Int × List UInt8} (run : (serRead sz).run s = some (result, t)) : t.fds = s.fds := by
  unfold serRead at run
  rw [run_bind_some (x := get) rfl] at run
  obtain ⟨_, u, stored, run⟩ := run_bind_eq_some.mp run
  cases stored
  have last := congrArg Prod.snd (Option.some.inj run)
  rw [← show _ = t from last]

omit [BlockStore σ] in
theorem runPending_done {n : Nat} {ret : Int} {bytes : List UInt8} {progress : Vfs.Progress}
    (run : (runPending n (.done ret bytes)).run s = some (progress, t)) : t = s := by
  cases n <;> (cases run; rfl)

theorem vfsRead_slot {i : Nat} {sz : UInt32} {progress : Vfs.Progress} (bound : i < 64) (used : (s.fds i).refcount = 1)
    (openable : Openable (s.fds i)) (run : (vfsRead i sz).run s = some (progress, t)) :
    ∃ f, t.fds = Function.update s.fds i f ∧ f.refcount = 1 ∧ Openable f := by
  have isOpen : fdOpen s.fds i = true := by
    refine SwiftBSD.Proof.Vfs.fdOpen_iff.mpr ⟨i, rfl, bound, ?_⟩
    omega
  unfold vfsRead at run
  obtain ⟨first, u, start, run⟩ := run_bind_eq_some.mp run
  unfold vfsReadStart at start
  rw [run_bind_some (x := get) rfl, isOpen] at start
  dsimp only [Bool.not_true, Bool.false_eq_true, if_false, Int.toNat_natCast] at start
  rcases openable with ops | ops
  · rw [ops] at start
    dsimp only at start
    obtain ⟨⟨ret, bytes⟩, v, reading, start⟩ := run_bind_eq_some.mp start
    have kept := serRead_fds reading
    cases start
    rw [runPending_done run, kept]
    exact ⟨s.fds i, (Function.update_eq_self i s.fds).symm, used, .inl ops⟩
  · rw [ops] at start
    dsimp only at start
    obtain ⟨⟨ret, bytes, pos⟩, v, reading, start⟩ := run_bind_eq_some.mp start
    have kept := swRead_fds reading
    cases start
    rw [runPending_done run]
    exact ⟨_, congrArg (fun fds => Function.update fds i _) kept, used, .inr rfl⟩

theorem vfsClose_slot {i : Nat} (bound : i < 64) (used : (s.fds i).refcount = 1)
    (run : (vfsClose i).run s = some (r, t)) : t.fds = Function.update s.fds i ⟨none, 0, 0, 0, 0⟩ := by
  cases SwiftBSD.Proof.Vfs.vfsClose_run run with
  | bad none =>
      have isOpen : fdOpen s.fds i = true := SwiftBSD.Proof.Vfs.fdOpen_iff.mpr ⟨i, rfl, bound, by omega⟩
      rw [isOpen] at none
      cases none
  | counted here _ more =>
      obtain rfl := Int.ofNat.inj here
      omega
  | closed here _ _ _ _ close =>
      obtain rfl := Int.ofNat.inj here
      cases close <;> simp

end Slots

section Kernel
variable {s t u : Kernel σ}

/-- The same slots are open, and they are as they were. -/
def SameOpen (fds fds' : Nat → File) : Prop :=
  ∀ i < 64, ((fds' i).refcount = 0 ↔ (fds i).refcount = 0) ∧ ((fds i).refcount ≠ 0 → fds' i = fds i)

theorem SameOpen.refl (fds : Nat → File) : SameOpen fds fds := fun _ _ => ⟨Iff.rfl, fun _ => rfl⟩

theorem sameOpen_update {fds : Nat → File} {i : Nat} {f : File} (free : (fds i).refcount = 0) (free' : f.refcount = 0) :
    SameOpen fds (Function.update fds i f) := by
  intro j _
  by_cases same : j = i
  · subst same
    simp [free, free']
  · simp [same]

/-- The process tables agree, but for the contents of free slots. -/
structure SameProcs (s t : Kernel σ) : Prop where
  current : t.currentIdx = s.currentIdx
  count : t.nrProcs = s.nrProcs
  fields : ∀ i, { t.procs i with fds := (s.procs i).fds } = s.procs i
  descriptors : ∀ i, SameOpen (s.procs i).fds (t.procs i).fds

omit [BlockStore σ] in
theorem SameProcs.refl (s : Kernel σ) : SameProcs s s := ⟨rfl, rfl, fun _ => rfl, fun i => .refl (s.procs i).fds⟩

/-- `t` differs from `s` in the descriptors of the running process and the state of the files only. -/
structure OnlyFiles (s t : Kernel σ) (fds : Nat → File) : Prop where
  current : t.currentIdx = s.currentIdx
  count : t.nrProcs = s.nrProcs
  machine : t.machine = s.machine
  procs : t.procs = Function.update s.procs s.currentIdx { s.current with fds }

omit [BlockStore σ] in
theorem onVfs_run {x : VfsM σ α} {a : α} (run : (onVfs x).run s = some (a, t)) :
    ∃ v, x.run { s.vfs with fds := s.current.fds } = some (a, v) ∧ OnlyFiles s t v.fds := by
  obtain ⟨⟨b, v⟩, here, same⟩ := Option.map_eq_some_iff.mp run
  cases same
  exact ⟨v, here, rfl, rfl, rfl, rfl⟩

omit [BlockStore σ] in
theorem OnlyFiles.fds {fds : Nat → File} (files : OnlyFiles s t fds) : t.current.fds = fds := by
  unfold Kernel.current
  rw [files.procs, files.current, Function.update_self]

omit [BlockStore σ] in
theorem OnlyFiles.trans {fds fds' : Nat → File} (first : OnlyFiles s t fds) (second : OnlyFiles t u fds') :
    OnlyFiles s u fds' := by
  refine ⟨second.current.trans first.current, second.count.trans first.count, second.machine.trans first.machine, ?_⟩
  rw [second.procs, first.current]
  unfold Kernel.current
  rw [first.procs, first.current, Function.update_self, Function.update_idem]
  rfl

omit [BlockStore σ] in
theorem OnlyFiles.same {fds : Nat → File} (files : OnlyFiles s t fds) (same : SameOpen s.current.fds fds) : SameProcs s t := by
  refine ⟨files.current, files.count, fun i => ?_, fun i => ?_⟩
  · rw [files.procs]
    by_cases here : i = s.currentIdx
    · subst here
      simp [Kernel.current]
    · simp [here]
  · rw [files.procs]
    by_cases here : i = s.currentIdx
    · subst here
      simpa [Kernel.current] using same
    · simp only [Function.update_of_ne here]
      exact .refl _

theorem readFile_slot {kmalloc : UInt32 → Bool} {fuel i : Nat} {file out : List UInt8} {cap : UInt32} (bound : i < 64)
    (used : (s.current.fds i).refcount = 1) (openable : Openable (s.current.fds i))
    (run : (readFile kmalloc i fuel file cap).run s = some (out, t)) :
    ∃ f, OnlyFiles s t (Function.update s.current.fds i f) ∧ f.refcount = 1 := by
  induction fuel generalizing s file cap with
  | zero => cases run
  | succ fuel ih =>
      unfold readFile at run
      obtain ⟨progress, u, read, rest⟩ := run_bind_eq_some.mp run
      obtain ⟨v, reading, files⟩ := onVfs_run read
      obtain ⟨f, fds, used', openable'⟩ := vfsRead_slot bound used openable reading
      dsimp only at fds
      rw [fds] at files
      have slot : u.current.fds i = f := by rw [files.fds, Function.update_self]
      cases progress with
      | waits _ | goes _ => cases rest
      | done n bytes =>
          dsimp only at rest
          split at rest
          · cases rest
            exact ⟨f, files, used'⟩
          have next : ∀ cap', (readFile kmalloc i fuel (file ++ bytes) cap').run u = some (out, t) →
              ∃ f, OnlyFiles s t (Function.update s.current.fds i f) ∧ f.refcount = 1 := by
            intro cap' again
            obtain ⟨g, files', used''⟩ := ih (by rw [slot, used']) (by rw [slot]; exact openable') again
            have both := files.trans files'
            rw [files.fds, Function.update_idem] at both
            exact ⟨g, both, used''⟩
          split at rest
          · split at rest
            · exact next _ rest
            · cases rest
          · exact next _ rest

omit [BlockStore σ] in
theorem OnlyFiles.refl (s : Kernel σ) : OnlyFiles s s s.current.fds := by
  refine ⟨rfl, rfl, rfl, ?_⟩
  exact (Function.update_eq_self s.currentIdx s.procs).symm

theorem readProgram_same {kmalloc : UInt32 → Bool} {fuel : Nat} {path : List UInt8} {file : Option (List UInt8)}
    (run : (readProgram kmalloc fuel path).run s = some (file, t)) : t.machine = s.machine ∧ SameProcs s t := by
  unfold readProgram at run
  obtain ⟨fd, u, opened, rest⟩ := run_bind_eq_some.mp run
  obtain ⟨v, opening, files⟩ := onVfs_run opened
  unfold vfsOpen at opening
  rw [run_bind_some (x := get) rfl] at opening
  have slot : OpenSlot s.current.fds fd v.fds := vfsOpenIn_slot opening
  generalize v.fds = fds at slot files
  cases slot with
  | failed =>
      cases rest
      exact ⟨files.machine, files.same (.refl _)⟩
  | @took i f bound free used openable =>
      -- whatever was read in between, the slot is free again after the close
      have closes : ∀ {w x : Kernel σ} {g : File} {ret : Int}, OnlyFiles s w (Function.update s.current.fds i g) →
          g.refcount = 1 → (onVfs (vfsClose i)).run w = some (ret, x) → x.machine = s.machine ∧ SameProcs s x := by
        intro w x g ret before count close
        obtain ⟨v', closing, after⟩ := onVfs_run close
        have fds := vfsClose_slot bound (by dsimp only; rw [before.fds, Function.update_self, count]) closing
        have both := before.trans after
        dsimp only at fds
        rw [fds, before.fds, Function.update_idem] at both
        exact ⟨both.machine, both.same (sameOpen_update free rfl)⟩
      have slot : u.current.fds i = f := by rw [files.fds, Function.update_self]
      rw [if_neg (by omega)] at rest
      split at rest
      · obtain ⟨_, x, close, rest⟩ := run_bind_eq_some.mp rest
        cases rest
        exact closes files used close
      obtain ⟨out, w, read, rest⟩ := run_bind_eq_some.mp rest
      obtain ⟨g, reading, used'⟩ := readFile_slot bound (by rw [slot, used]) (by rw [slot]; exact openable) read
      have before := files.trans reading
      rw [files.fds, Function.update_idem] at before
      obtain ⟨_, x, close, rest⟩ := run_bind_eq_some.mp rest
      have done := closes before used' close
      split at rest
      · cases rest
        exact done
      · cases rest
        exact done

end Kernel

end SwiftBSD.Proof.User
