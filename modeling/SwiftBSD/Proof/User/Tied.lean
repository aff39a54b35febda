import SwiftBSD.Proof.User.Invisible
import SwiftBSD.Proof.Vfs.Denotes

namespace SwiftBSD.Proof.User
open Lib SwiftBSD.Fs SwiftBSD.Mm SwiftBSD.Vfs SwiftBSD.Sched SwiftBSD.User SwiftBSD.Proof.Mm SwiftBSD.Proof.Sched
open SwiftBSD.Proof.Vfs
open Mapped (PagingCall FileCall MapEvent MapStep)

variable {σ α : Type} {s t u : Kernel σ} {pagePml4 cr2 errorCode addr stop virt : UInt64}

def shown (s : Kernel σ) : ((Nat → Option Ops × Nat × Int) × (Nat → Nat) × List Ops) × Vmas := (handles (Kernel.files s), s.current.vmas)

section Keep
variable [BlockStore σ]

omit [BlockStore σ] in
theorem keeps_onMachine (x : MmM α) : Keeps shown (onMachine x : KernelM σ α) := by
  intro s a t run
  obtain ⟨m, -, rfl⟩ := onMachine_run run
  rfl

omit [BlockStore σ] in
theorem keeps_onVfs {x : VfsM σ α} (keeps : Keeps handles x) : Keeps shown (onVfs x) := by
  intro s a t run
  obtain ⟨v, inner, rfl⟩ := onVfs_files run
  unfold shown
  rw [files_setFiles, vmas_setFiles, keeps _ _ _ inner]

theorem keeps_readInto (fd : Int) (page : UInt64) (sz : UInt32) : Keeps shown (readInto fd page sz : KernelM σ _) := by
  refine .bind (keeps_onVfs (keeps_vfsRead fd sz)) fun progress => ?_
  split
  · exact .bind (keeps_onMachine _) fun _ => .pure _
  · exact .failure

theorem keeps_fillPage (v : Vma) (page : UInt64) : Keeps shown (fillPage v page : KernelM σ _) := by
  unfold fillPage
  split
  · exact .bind (keeps_onVfs (keeps_vfsLseek _ _ _)) fun _ => .bind (keeps_readInto _ _ _) fun _ => .pure _
  · exact .pure _

theorem keeps_vmaFault (v : Vma) (cr2 : UInt64) (write : Bool) : Keeps shown (vmaFault v cr2 write : KernelM σ _) := by
  unfold vmaFault
  refine .bind (keeps_onMachine _) fun phys => ?_
  split
  · exact .failure
  · exact .bind (keeps_onMachine _) fun _ => keeps_fillPage _ _

theorem keeps_exceptionHandler (cr2 errorCode : UInt64) : Keeps shown (exceptionHandler cr2 errorCode : KernelM σ _) := by
  unfold exceptionHandler
  dsimp only
  split
  · exact keeps_onMachine _
  split
  · exact keeps_onMachine _
  split
  · refine .bind .get fun s => ?_
    split
    · exact keeps_vmaFault _ _ _
    · exact .failure
  · exact .failure

theorem keeps_kernelLoad (virt : UInt64) : Keeps shown (kernelLoad virt : KernelM σ _) := by
  refine .bind ?_ fun _ => .bind .get fun _ => .pure _
  refine .bind .get fun s => ?_
  dsimp only
  split
  · exact .failure
  split
  · exact .pure _
  · exact .bind (keeps_exceptionHandler _ _) fun _ => keeps_onMachine _

theorem keeps_loadBytes (addr : UInt64) (i n : Nat) : Keeps shown (Mapped.loadBytes addr i n : KernelM σ _) := by
  induction n generalizing i with
  | zero => exact .pure _
  | succ n ih =>
      unfold Mapped.loadBytes
      exact .bind (keeps_kernelLoad _) fun _ => .bind (ih _) fun _ => .pure _

theorem keeps_writebackPage (pagePml4 : UInt64) (v : Vma) (p : UInt64) : Keeps shown (Mapped.writebackPage pagePml4 v p : KernelM σ _) := by
  refine .bind (keeps_onMachine _) fun found => ?_
  split
  · exact .pure _
  refine .bind (keeps_onMachine _) fun pte => ?_
  split
  swap
  · exact .pure _
  refine .bind (keeps_onVfs (keeps_vfsLseek _ _ _)) fun _ => .bind (keeps_loadBytes _ _ _) fun tmp => ?_
  refine .bind (.bind (keeps_onVfs (keeps_vfsWrite _ _)) fun progress => ?_) fun _ => keeps_onMachine _
  split
  · exact .pure _
  · exact .failure

omit [BlockStore σ] in
theorem keeps_forPages {body : UInt64 → KernelM σ Unit} (each : ∀ p, Keeps shown (body p)) (start stop : UInt64) :
    Keeps shown (Mapped.forPages body start stop) := by
  unfold Mapped.forPages
  split
  · exact .forRange (fun k => each _) _ _
  · exact .failure

theorem keeps_writeback (pagePml4 start stop : UInt64) (v : Vma) :
    Keeps shown (Mapped.vmaWritebackDirty pagePml4 start stop v : KernelM σ _) := by
  unfold Mapped.vmaWritebackDirty
  split
  · exact .pure _
  · exact keeps_forPages (fun p => keeps_writebackPage _ _ _) _ _

theorem keeps_scMsync (pagePml4 addr length : UInt64) : Keeps shown (Mapped.scMsync pagePml4 addr length : KernelM σ _) := by
  unfold Mapped.scMsync
  split
  · exact .pure _
  refine .bind (.forRange (fun i => ?_) _ _) fun _ => .pure _
  refine .bind .get fun s => ?_
  dsimp only
  split
  · exact keeps_writeback _ _ _ _
  · exact .pure _

theorem keeps_userAccess (virt : UInt64) (write : Bool) : Keeps shown (Mapped.userAccess virt write : KernelM σ _) := by
  have again : Keeps shown (do
      let tr ← onMachine (translated virt)
      if Mapped.allows write tr then return tr else failure : KernelM σ Translation) := by
    refine .bind (keeps_onMachine _) fun tr => ?_
    split
    · exact .pure _
    · exact .failure
  refine .bind .get fun s => ?_
  dsimp only
  split
  · exact .failure
  split
  · split
    · exact .pure _
    · exact .bind (keeps_exceptionHandler _ _) fun _ => again
  · exact .bind (keeps_exceptionHandler _ _) fun _ => again

end Keep

/-- Every mapping of `t'` has the descriptor of a mapping of `t`. -/
def PiecesOf (t t' : Vmas) : Prop :=
  ∀ j < vmaMax, (t'.entry j).used = true → ∃ i < vmaMax, (t.entry i).used = true ∧ (t'.entry j).fd = (t.entry i).fd

section Pieces
variable {a b c : Vmas} {i j : Nat}

theorem PiecesOf.refl (a : Vmas) : PiecesOf a a := fun j bound used => ⟨j, bound, used, rfl⟩

theorem PiecesOf.trans (first : PiecesOf a b) (second : PiecesOf b c) : PiecesOf a c := by
  intro j bound used
  obtain ⟨i, bound', used', fd⟩ := second j bound used
  obtain ⟨k, bound'', used'', fd'⟩ := first i bound' used'
  exact ⟨k, bound'', used'', fd.trans fd'⟩

theorem piecesOf_update {v : Vma} {n : Int} (same : v.used = true → (a.entry i).used = true ∧ v.fd = (a.entry i).fd) :
    PiecesOf a ⟨Function.update a.entry i v, n⟩ := by
  intro j bound used
  dsimp only at used ⊢
  by_cases here : j = i
  · subst here
    rw [Function.update_self] at used ⊢
    obtain ⟨used', fd⟩ := same used
    exact ⟨j, bound, used', fd⟩
  · rw [Function.update_of_ne here] at used ⊢
    exact ⟨j, bound, used, rfl⟩

theorem piecesOf_split (bound : i < vmaMax) (split : vmaSplit a i addr = some (j, b)) : PiecesOf a b ∧ j < vmaMax := by
  unfold vmaSplit at split
  dsimp only at split
  split at split
  · cases split
  split at split
  · cases split
  next right free =>
  cases split
  obtain ⟨-, upper, -, -⟩ := firstFrom_some free
  rw [Nat.zero_add] at upper
  refine ⟨?_, upper⟩
  intro k small used
  dsimp only at used ⊢
  by_cases left : k = i
  · subst left
    rw [Function.update_self] at used ⊢
    exact ⟨k, bound, used, rfl⟩
  rw [Function.update_of_ne left] at used ⊢
  by_cases new : k = j
  · subst new
    rw [Function.update_self] at used ⊢
    exact ⟨i, bound, used, rfl⟩
  · rw [Function.update_of_ne new] at used ⊢
    exact ⟨k, small, used, rfl⟩

def cutRight (a : Vmas) (i : Nat) (stop : UInt64) : Option (Nat × Vmas) :=
  if stop < (a.entry i).stop then
    match vmaSplit a i stop with
    | some (_, t) => some (i, t)
    | none => some (i, a)
  else some (i, a)

theorem piecesOf_cutOut (bound : i < vmaMax) (cut : cutOut a i addr stop = some (j, b)) : PiecesOf a b ∧ j < vmaMax := by
  have second {i : Nat} {a : Vmas} (bound : i < vmaMax) (cut : cutRight a i stop = some (j, b)) : PiecesOf a b ∧ j < vmaMax := by
    unfold cutRight at cut
    split at cut
    · split at cut
      · next right split =>
          cases cut
          exact ⟨(piecesOf_split bound split).1, bound⟩
      · cases cut
        exact ⟨.refl _, bound⟩
    · cases cut
      exact ⟨.refl _, bound⟩
  unfold cutOut at cut
  split at cut
  · cases cut
  next k c first =>
  split at first
  · obtain ⟨pieces, bound'⟩ := piecesOf_split bound first
    obtain ⟨pieces', upper⟩ := second bound' cut
    exact ⟨pieces.trans pieces', upper⟩
  · cases first
    exact second bound cut

theorem piecesOf_free (a : Vmas) (i : Nat) : PiecesOf a (freeSlot a i) := piecesOf_update fun used => by cases used

theorem piecesOf_mergeInto (merge : mergeInto a i j = some b) : PiecesOf a b := by
  unfold mergeInto at merge
  dsimp only at merge
  split at merge
  · cases merge
    intro k bound used
    dsimp only at used ⊢
    by_cases gone : k = j
    · subst gone
      rw [Function.update_self] at used
      cases used
    rw [Function.update_of_ne gone] at used ⊢
    by_cases grown : k = i
    · subst grown
      rw [Function.update_self] at used ⊢
      exact ⟨k, bound, used, rfl⟩
    · rw [Function.update_of_ne grown] at used ⊢
      exact ⟨k, bound, used, rfl⟩
  · cases merge

theorem piecesOf_merge (a : Vmas) (i : Nat) : PiecesOf a (vmaTryMerge a i) := by
  unfold vmaTryMerge
  split
  · next merge =>
      split at merge
      · exact piecesOf_mergeInto merge
      · cases merge
  split
  · next merge =>
      split at merge
      · exact piecesOf_mergeInto merge
      · cases merge
  · exact .refl _

end Pieces

section Unmap
variable [BlockStore σ]

theorem unmapSlot_shown {j : Nat} (run : (Mapped.unmapSlot pagePml4 j).run s = some ((), t)) :
    handles (Kernel.files t) = handles (Kernel.files s) ∧ PiecesOf s.current.vmas t.current.vmas := by
  unfold Mapped.unmapSlot at run
  rw [run_bind_some (x := get) rfl] at run
  obtain ⟨_, s₁, back, run⟩ := run_bind_eq_some.mp run
  have same₁ := keeps_writeback _ _ _ _ _ _ _ back
  obtain ⟨_, s₂, unmap, run⟩ := run_bind_eq_some.mp run
  have same₂ := keeps_forPages (fun p => keeps_onMachine _) _ _ _ _ _ unmap
  have both := same₂.trans same₁
  rw [run_bind_some (x := get) rfl] at run
  obtain ⟨same, -, vmas⟩ := setVmas_run run
  have table : s₂.current.vmas = s.current.vmas := congrArg Prod.snd both
  rw [vmas, same.files, table]
  exact ⟨congrArg Prod.fst both, (piecesOf_free _ j).trans (piecesOf_merge _ j)⟩

theorem unmapFrom_shown {fuel i : Nat} {r : Bool} (run : (Mapped.unmapFrom pagePml4 addr stop fuel i).run s = some (r, t)) :
    handles (Kernel.files t) = handles (Kernel.files s) ∧ PiecesOf s.current.vmas t.current.vmas := by
  induction fuel generalizing i s with
  | zero => cases run
  | succ fuel ih =>
      unfold Mapped.unmapFrom at run
      split at run
      · obtain ⟨-, rfl⟩ := pure_run run
        exact ⟨rfl, .refl _⟩
      next inside =>
      rw [run_bind_some (x := get) rfl] at run
      dsimp only at run
      split at run
      swap
      · exact ih run
      cases cut : cutOut s.current.vmas i addr stop with
      | none =>
          rw [cut] at run
          obtain ⟨-, rfl⟩ := pure_run run
          exact ⟨rfl, .refl _⟩
      | some piece =>
          obtain ⟨j, v⟩ := piece
          obtain ⟨pieces, -⟩ := piecesOf_cutOut (Nat.lt_of_not_le inside) cut
          rw [cut] at run
          dsimp only at run
          obtain ⟨_, s₁, place, run⟩ := run_bind_eq_some.mp run
          obtain ⟨same₁, -, vmas⟩ := setVmas_run place
          obtain ⟨_, s₂, slot, run⟩ := run_bind_eq_some.mp run
          obtain ⟨same₂, pieces₂⟩ := unmapSlot_shown slot
          obtain ⟨same₃, pieces₃⟩ := ih run
          rw [vmas] at pieces₂
          rw [same₁.files] at same₂
          exact ⟨same₃.trans same₂, (pieces.trans pieces₂).trans pieces₃⟩

theorem munmap_shown {fuel : Nat} {length r : UInt64} (run : (Mapped.scMunmap pagePml4 fuel addr length).run s = some (r, t)) :
    handles (Kernel.files t) = handles (Kernel.files s) ∧ PiecesOf s.current.vmas t.current.vmas := by
  unfold Mapped.scMunmap at run
  split at run
  · obtain ⟨-, rfl⟩ := pure_run run
    exact ⟨rfl, .refl _⟩
  obtain ⟨whole, u, loop, run⟩ := run_bind_eq_some.mp run
  have done := unmapFrom_shown loop
  split at run
  · obtain ⟨-, rfl⟩ := pure_run run
    exact done
  · obtain ⟨-, rfl⟩ := pure_run run
    exact done

end Unmap

def mmapFd (arg3 : UInt64) : Int32 := (arg3 >>> 32).toUInt32.toInt32

def mmapSlot (s : Kernel σ) (length : UInt64) : Option Nat := if length = 0 then none else vmaAllocSlot s.current.vmas

/-- `origin j` is the file that the descriptor of the mapping in slot `j` denoted when it was made. What is left after
`SC_MUNMAP` was part of a mapping with the same descriptor before. -/
def Traces (s : Kernel σ) (origin : Nat → Option Nat) (t : Kernel σ) (origin' : Nat → Option Nat) : MapEvent → Prop
  | .paging (.mmap _ length arg3 _) =>
      origin' = match mmapSlot s length with
        | some j => Function.update origin j (fileOf (Kernel.files s) (mmapFd arg3).toInt)
        | none => origin
  | .paging (.munmap _ _) => ∀ j < vmaMax, (t.current.vmas.entry j).used = true →
      ∃ i < vmaMax, (s.current.vmas.entry i).used = true ∧ (t.current.vmas.entry j).fd = (s.current.vmas.entry i).fd ∧
        origin' j = origin i
  | _ => origin' = origin

/-- A descriptor that a mapping has kept the number of. -/
def Named (s : Kernel σ) (f : Int) : Prop :=
  ∃ j < vmaMax, (s.current.vmas.entry j).used = true ∧ 0 ≤ (s.current.vmas.entry j).fd ∧ (s.current.vmas.entry j).fd.toInt = f

/-- The call takes no file away from under a mapping, and maps only what is open. -/
def KeepsMapped (s : Kernel σ) : MapEvent → Prop
  | .file (.close fd) _ => ∀ f, Named s f → ¬Releases (Kernel.files s) fd f
  | .file (.dup2 oldfd newfd) _ => SwiftBSD.Vfs.fdOpen (Kernel.files s).fds oldfd = true → 0 ≤ newfd → newfd < 64 → newfd ≠ oldfd →
      ∀ f, Named s f → ¬Releases (Kernel.files s) newfd f ∧ (newfd = f → SameHandle (Kernel.files s) oldfd f)
  | .paging (.mmap _ length arg3 _) => mmapSlot s length ≠ none → 0 ≤ mmapFd arg3 →
      fileOf (Kernel.files s) (mmapFd arg3).toInt ≠ none
  | _ => True

structure Tied (s : Kernel σ) (origin : Nat → Option Nat) : Prop where
  registered : (Kernel.files s).fsList = [.swiftfs]
  counted : Counted (Kernel.files s)
  tied : ∀ j < vmaMax, (s.current.vmas.entry j).used = true → 0 ≤ (s.current.vmas.entry j).fd →
    ∃ file, origin j = some file ∧ fileOf (Kernel.files s) (s.current.vmas.entry j).fd.toInt = some file

section Run
variable [BlockStore σ] {origin origin' : Nat → Option Nat}

/-- The states a run of allowed steps can reach, with the origins of the mappings there. -/
inductive TracedRun (pagePml4 : UInt64) (Allowed : Kernel σ → MapEvent → Prop) (s : Kernel σ) (origin : Nat → Option Nat) :
    Kernel σ → (Nat → Option Nat) → Prop
  | start : TracedRun pagePml4 Allowed s origin s origin
  | step {e : MapEvent} {t u : Kernel σ} {origin' origin'' : Nat → Option Nat}
      (before : TracedRun pagePml4 Allowed s origin t origin') (allowed : Allowed t e) (step : MapStep pagePml4 t e u)
      (traces : Traces t origin' u origin'' e) : TracedRun pagePml4 Allowed s origin u origin''

omit [BlockStore σ] in
theorem Tied.keep (tied : Tied s origin) (same : shown t = shown s) : Tied t origin := by
  have files : handles (Kernel.files t) = handles (Kernel.files s) := congrArg Prod.fst same
  have vmas : t.current.vmas = s.current.vmas := congrArg Prod.snd same
  refine ⟨?_, tied.counted.congr files, fun j bound used file => ?_⟩
  · exact (congrArg (·.2.2) files).trans tied.registered
  · rw [vmas] at used file ⊢
    obtain ⟨inode, made, now⟩ := tied.tied j bound used file
    exact ⟨inode, made, (fileOf_congr files _).trans now⟩

omit [BlockStore σ] in
theorem Tied.setFiles {v : VfsState σ} (tied : Tied s origin) (registered : v.fsList = (Kernel.files s).fsList) (counted : Counted v)
    (kept : ∀ (i file : Nat), Named s i → Denotes (Kernel.files s) i file → Denotes v i file) : Tied (Kernel.setFiles s v) origin := by
  refine ⟨?_, ?_, fun j bound used file => ?_⟩
  · rw [files_setFiles, registered]
    exact tied.registered
  · rw [files_setFiles]
    exact counted
  · rw [vmas_setFiles] at used file ⊢
    obtain ⟨inode, made, now⟩ := tied.tied j bound used file
    obtain ⟨i, name, denotes⟩ := fileOf_eq_some.mp now
    rw [files_setFiles]
    exact ⟨inode, made, fileOf_eq_some.mpr ⟨i, name, kept i inode ⟨j, bound, used, file, name⟩ denotes⟩⟩

theorem Tied.file {call : FileCall} {result : Vfs.Progress} (tied : Tied s origin) (allowed : KeepsMapped s (.file call result))
    (run : (onVfs call.exec).run s = some (result, t)) : Tied t origin := by
  cases call with
  | read fd sz => exact tied.keep (keeps_onVfs (keeps_vfsRead fd sz) _ _ _ run)
  | write fd buf => exact tied.keep (keeps_onVfs (keeps_vfsWrite fd buf) _ _ _ run)
  | open_ path flags =>
      obtain ⟨v, inner, rfl⟩ := onVfs_files run
      obtain ⟨r, w, opening, done⟩ := run_bind_eq_some.mp inner
      obtain ⟨-, rfl⟩ := pure_run done
      have ran := vfsOpen_run tied.registered opening
      refine tied.setFiles ?_ (ran.keepsCounted tied.counted) fun i file _ denotes => ran.keeps denotes
      cases ran with
      | failed _ => rfl
      | took _ _ _ _ _ _ _ => rfl
      | full _ _ _ _ _ close => cases close <;> rfl
  | close fd =>
      obtain ⟨v, inner, rfl⟩ := onVfs_files run
      obtain ⟨r, w, closing, done⟩ := run_bind_eq_some.mp inner
      obtain ⟨-, rfl⟩ := pure_run done
      have ran := vfsClose_run closing
      refine tied.setFiles ran.registered (ran.keepsCounted tied.counted) fun i file named denotes => ?_
      exact ran.keeps denotes (allowed i named)
  | dup2 oldfd newfd =>
      obtain ⟨v, inner, rfl⟩ := onVfs_files run
      obtain ⟨r, w, duplicating, done⟩ := run_bind_eq_some.mp inner
      obtain ⟨-, rfl⟩ := pure_run done
      have ran := vfsDup2_run duplicating
      refine tied.setFiles ran.registered (ran.keepsCounted tied.counted) fun i file named denotes => ?_
      exact ran.keeps denotes tied.counted fun opened lower upper differ => allowed opened lower upper differ i named

omit [BlockStore σ] in
theorem Tied.mmap {length arg3 offset r : UInt64} (tied : Tied s origin)
    (allowed : KeepsMapped s (.paging (.mmap addr length arg3 offset))) (run : (Mapped.scMmap addr length arg3 offset).run s = some (r, t))
    (traces : Traces s origin t origin' (.paging (.mmap addr length arg3 offset))) : Tied t origin' := by
  unfold Traces at traces
  unfold KeepsMapped at allowed
  dsimp only at traces allowed
  unfold mmapSlot at traces allowed
  unfold Mapped.scMmap at run
  dsimp only at run
  split at run
  · next empty =>
      rw [if_pos empty] at traces
      obtain ⟨-, rfl⟩ := pure_run run
      rw [show origin' = origin from traces]
      exact tied
  next full =>
  rw [if_neg full] at traces allowed
  rw [run_bind_some (x := get) rfl] at run
  cases slot : vmaAllocSlot s.current.vmas with
  | none =>
      rw [slot] at run traces
      obtain ⟨-, rfl⟩ := pure_run run
      rw [show origin' = origin from traces]
      exact tied
  | some k =>
      rw [slot] at run traces allowed
      dsimp only at run traces
      obtain ⟨_, s₁, place, run⟩ := run_bind_eq_some.mp run
      obtain ⟨-, rfl⟩ := pure_run run
      obtain ⟨same, -, vmas⟩ := setVmas_run place
      refine ⟨?_, ?_, fun j bound used file => ?_⟩
      · rw [same.files]
        exact tied.registered
      · rw [same.files]
        exact tied.counted
      rw [vmas] at used file ⊢
      rw [same.files, traces]
      dsimp only at used file ⊢
      by_cases here : j = k
      · subst here
        rw [Function.update_self] at file
        rw [Function.update_self, Function.update_self]
        obtain ⟨inode, now⟩ := Option.ne_none_iff_exists'.mp (allowed (Option.some_ne_none _) file)
        exact ⟨inode, now, now⟩
      · rw [Function.update_of_ne here] at used file
        rw [Function.update_of_ne here, Function.update_of_ne here]
        exact tied.tied j bound used file

theorem Tied.step {e : MapEvent} (tied : Tied s origin) (allowed : KeepsMapped s e) (step : MapStep pagePml4 s e t)
    (traces : Traces s origin t origin' e) : Tied t origin' := by
  cases step with
  | @file call result _ run =>
      have same : origin' = origin := by cases call <;> exact traces
      rw [same]
      exact tied.file allowed run
  | @paging call fuel _ run =>
      cases call with
      | mmap addr length arg3 offset =>
          obtain ⟨r, s₁, map, run⟩ := run_bind_eq_some.mp run
          obtain ⟨-, rfl⟩ := pure_run run
          exact tied.mmap allowed map traces
      | munmap addr length =>
          obtain ⟨r, s₁, unmap, run⟩ := run_bind_eq_some.mp run
          obtain ⟨-, rfl⟩ := pure_run run
          obtain ⟨files, -⟩ := munmap_shown unmap
          refine ⟨(congrArg (·.2.2) files).trans tied.registered, tied.counted.congr files, fun j bound used file => ?_⟩
          obtain ⟨i, bound', used', fd, from_⟩ := traces j bound used
          rw [fd] at file ⊢
          rw [from_, fileOf_congr files]
          exact tied.tied i bound' used' file
      | msync addr length =>
          rw [show origin' = origin from traces]
          obtain ⟨r, s₁, sync, run⟩ := run_bind_eq_some.mp run
          obtain ⟨-, rfl⟩ := pure_run run
          exact tied.keep (keeps_scMsync _ _ _ _ _ _ sync)
      | fault cr2 errorCode =>
          rw [show origin' = origin from traces]
          exact tied.keep (keeps_exceptionHandler _ _ _ _ _ run)
      | load virt =>
          rw [show origin' = origin from traces]
          have keeps : Keeps shown (Mapped.loadByte virt : KernelM σ _) :=
            .bind (keeps_userAccess virt false) fun _ => .bind .get fun _ => .pure _
          obtain ⟨b, s₁, load, run⟩ := run_bind_eq_some.mp run
          obtain ⟨-, rfl⟩ := pure_run run
          exact tied.keep (keeps _ _ _ load)
      | store virt b =>
          rw [show origin' = origin from traces]
          have keeps : Keeps shown (Mapped.storeByte virt b : KernelM σ _) :=
            .bind (keeps_userAccess virt true) fun _ => .bind (keeps_onMachine _) fun _ => keeps_onMachine _
          exact tied.keep (keeps _ _ _ run)
      | dirty virt =>
          rw [show origin' = origin from traces]
          exact tied.keep (keeps_onMachine _ _ _ _ run)

theorem traces_exist {e : MapEvent} (step : MapStep pagePml4 s e t) (origin : Nat → Option Nat) : ∃ origin', Traces s origin t origin' e := by
  cases step with
  | @file call _ _ _ => cases call <;> exact ⟨origin, rfl⟩
  | @paging call fuel _ run =>
      cases call with
      | munmap addr length =>
          obtain ⟨r, s₁, unmap, run⟩ := run_bind_eq_some.mp run
          obtain ⟨-, rfl⟩ := pure_run run
          obtain ⟨-, pieces⟩ := munmap_shown unmap
          choose! parent bound used fd using pieces
          exact ⟨fun j => origin (parent j), fun j small here => ⟨parent j, bound j small here, used j small here, fd j small here, rfl⟩⟩
      | mmap _ _ _ _ => exact ⟨_, rfl⟩
      | msync _ _ | fault _ _ | load _ | store _ _ | dirty _ => exact ⟨origin, rfl⟩

theorem mapping_tied (registered : s.vfs.fsList = [.swiftfs]) (counted : ∀ i < 64, 0 ≤ (s.current.fds i).refcount)
    (anonymous : ∀ j < vmaMax, (s.current.vmas.entry j).used = true → (s.current.vmas.entry j).fd < 0)
    (run : TracedRun pagePml4 KeepsMapped s origin t origin') :
    (∀ j < vmaMax, (t.current.vmas.entry j).used = true → 0 ≤ (t.current.vmas.entry j).fd →
      ∃ file, origin' j = some file ∧ fileOf (Kernel.files t) (t.current.vmas.entry j).fd.toInt = some file) ∧
    ∀ e u, MapStep pagePml4 t e u → ∃ origin'', Traces t origin' u origin'' e := by
  have tied : Tied t origin' := by
    induction run with
    | start =>
        refine ⟨registered, counted, fun j bound used file => ?_⟩
        exact absurd (anonymous j bound used) (Int32.not_lt.mpr file)
    | step before allowed step traces ih => exact ih.step allowed step traces
  exact ⟨tied.tied, fun e u step => traces_exist step origin'⟩

end Run

open SwiftBSD.Proof.Fs

def noMappings : Vmas := ⟨fun _ => ⟨0, 0, 0, 0, 0, 0, false⟩, 0⟩

def mapsThird : MapEvent := .paging (.mmap 0x40000000 4096 0x300000003 0)

def thirdMapped (fs : FsState Disk) (d : Nat) : Kernel Disk := (fileProcess fs d noMappings).setProc 0
  { (fileProcess fs d noMappings).current with
    vmas := ⟨Function.update (fun _ => ⟨0, 0, 0, 0, 0, 0, false⟩) 0 ⟨0x40000000, 0x40001000, 3, 3, 3, 0, true⟩, 1⟩ }

def thirdOrigin (file : Nat) : Nat → Option Nat := Function.update (fun _ => none) 0 (some file)

section Third

variable {fs : FsState Disk} {d file : Nat}

theorem mapsThird_step : MapStep 0x110000 (fileProcess fs d noMappings) mapsThird (thirdMapped fs d) := @MapStep.paging _ _ _ _ _ 0 _ rfl

theorem third_file (denotes : Denotes (oneSlot fs d) 3 file) : fileOf (Kernel.files (fileProcess fs d noMappings)) 3 = some file :=
  fileOf_eq_some.mpr ⟨3, rfl, denotes⟩

theorem mapsThird_traces (denotes : Denotes (oneSlot fs d) 3 file) :
    Traces (fileProcess fs d noMappings) (fun _ => none) (thirdMapped fs d) (thirdOrigin file) mapsThird := by
  unfold thirdOrigin
  rw [← third_file denotes]
  rfl

theorem thirdMapped_named {f : Int} (named : Named (thirdMapped fs d) f) : f = 3 := by
  obtain ⟨j, -, used, -, rfl⟩ := named
  let entries : Nat → Vma := Function.update (fun _ => ⟨0, 0, 0, 0, 0, 0, false⟩) 0 ⟨0x40000000, 0x40001000, 3, 3, 3, 0, true⟩
  change (entries j).used = true at used
  change (entries j).fd.toInt = 3
  unfold entries at used ⊢
  by_cases here : j = 0
  · subst here
    rfl
  · rw [Function.update_of_ne here] at used
    cases used

end Third

theorem third_counted (fs : FsState Disk) (d : Nat) : ∀ i < 64, 0 ≤ ((fileProcess fs d noMappings).current.fds i).refcount := by
  intro i bound
  change 0 ≤ ((oneSlot fs d).fds i).refcount
  unfold oneSlot
  dsimp only
  by_cases third : i = 3
  · rw [third, Function.update_self]
    exact Int.one_nonneg
  · rw [Function.update_of_ne third]
    revert i
    decide

theorem mapping_tied_close : ∃ fs d file t, Volume fs ∧ (inodeAt fs file).isDir = false ∧
    TracedRun 0x110000 KeepsMapped (fileProcess fs d noMappings) (fun _ => none) t (thirdOrigin file) ∧
    (t.current.vmas.entry 0).used = true ∧ fileOf (Kernel.files t) (t.current.vmas.entry 0).fd.toInt = some file := by
  obtain ⟨img, s₀, fs, V, D, i, d, made, mounted, reach, file⟩ := newFile_128
  obtain ⟨-, denotes⟩ := newFile_slot file
  have opens : KeepsMapped (fileProcess fs d noMappings) mapsThird := by
    intro _ _ none
    exact absurd ((third_file denotes).symm.trans none) (by simp)
  have first : TracedRun 0x110000 KeepsMapped (fileProcess fs d noMappings) (fun _ => none) (thirdMapped fs d) (thirdOrigin i) :=
    TracedRun.start.step opens mapsThird_step (mapsThird_traces denotes)
  have keeps : KeepsMapped (thirdMapped fs d) (.file (.close 1) (.done 0 [])) := by
    intro f named releases
    obtain rfl := thirdMapped_named named
    cases releases.ops
  have run : ∃ t, TracedRun 0x110000 KeepsMapped (fileProcess fs d noMappings) (fun _ => none) t (thirdOrigin i) ∧
      (t.current.vmas.entry 0).used = true ∧ (t.current.vmas.entry 0).fd = 3 :=
    ⟨_, first.step keeps (.file rfl) rfl, rfl, rfl⟩
  obtain ⟨t, run, used, named⟩ := run
  have tied := mapping_tied rfl (third_counted fs d) (fun j _ used => by cases used) run
  obtain ⟨inode, made', now⟩ := tied.1 0 (by decide) used (by rw [named]; decide)
  cases made'
  refine ⟨fs, d, i, t, ⟨128, img, _, s₀, by decide, made, mounted, reach⟩, ?_, run, used, now⟩
  rw [file.rep.inode i file.bound, file.empty]
  decide

theorem newFile_close {fs : FsState Disk} {V : Vol} {D : Nat → List (List Rec)} {i d : Nat} (file : NewFile fs V D i d) :
    ∃ fs', (swiftfs2Close d).run fs = some (0, fs') := by
  have opened : SwiftBSD.Fs.fdOpen fs.fds d = true := by
    unfold SwiftBSD.Fs.fdOpen
    rw [file.rep.fds, Int.toNat_natCast, file.descriptor]
    have lower := file.lower
    have upper := file.upper
    simp [file.nonzero]
    omega
  have clean : (fs.fds (d : Int).toNat).dirty = false := by rw [file.rep.fds, Int.toNat_natCast, file.descriptor]
  unfold swiftfs2Close
  rw [run_bind_some (x := get) rfl, opened, if_neg (by decide), clean]
  exact ⟨_, rfl⟩

theorem dup2_console {fs fs' : FsState Disk} {d : Nat} (closed : (swiftfs2Close d).run fs = some (0, fs')) :
    ∃ v, (vfsDup2 1 3).run (oneSlot fs d) = some (3, v) ∧ (v.fds 3).ops = some .serial := by
  let w : VfsState Disk := { oneSlot fs d with
    fds := Function.update (oneSlot fs d).fds 3 ⟨some .swiftfs, d, 0, 0, 0⟩
    closed := [(.swiftfs, d)] }
  have close : (vfsClose 3).run (oneSlot fs d) =
      some (0, { w with fs := fs', fds := Function.update w.fds 3 ⟨none, 0, 0, 0, 0⟩ }) := by
    have given : (opsClose .swiftfs d).run { oneSlot fs d with fds := w.fds } = some (0, { w with fs := fs' }) :=
      liftFs_of_run (s := w) closed
    unfold vfsClose
    rw [run_bind_some (x := get) rfl]
    change (setFile 3 ⟨some .swiftfs, d, 0, 0, 0⟩ >>= fun _ => do
      let ret ← opsClose .swiftfs d
      setFile 3 ⟨none, 0, 0, 0, 0⟩
      return ret : VfsM Disk Int).run (oneSlot fs d) = _
    rw [run_bind_some (x := setFile 3 _) rfl, run_bind_some given]
    rfl
  refine ⟨{ w with fs := fs', fds := dupInto 1 3 (Function.update w.fds 3 ⟨none, 0, 0, 0, 0⟩) }, ?_, ?_⟩
  · unfold vfsDup2
    rw [run_bind_some (x := get) rfl]
    change (vfsClose 3 >>= fun _ => do
      modify fun s => { s with fds := dupInto 1 3 s.fds }
      return 3 : VfsM Disk Int).run (oneSlot fs d) = _
    rw [run_bind_some close]
    rfl
  · rfl

/-- The console is put in the slot of the file: the mapping of the file now reads and writes the console. -/
theorem dup2_redirects_mapping : ∃ fs d file t, Volume fs ∧ (inodeAt fs file).isDir = false ∧
    TracedRun 0x110000 (fun _ _ => True) (fileProcess fs d noMappings) (fun _ => none) t (thirdOrigin file) ∧
    thirdOrigin file 0 = some file ∧ (t.current.vmas.entry 0).used = true ∧ (t.current.vmas.entry 0).fd = 3 ∧
    (t.current.fds 3).ops = some .serial ∧ fileOf (Kernel.files t) 3 = none := by
  obtain ⟨img, s₀, fs, V, D, i, d, made, mounted, reach, file⟩ := newFile_128
  obtain ⟨-, denotes⟩ := newFile_slot file
  have first : TracedRun 0x110000 (fun _ _ => True) (fileProcess fs d noMappings) (fun _ => none) (thirdMapped fs d) (thirdOrigin i) :=
    TracedRun.start.step trivial mapsThird_step (mapsThird_traces denotes)
  obtain ⟨fs', closed⟩ := newFile_close file
  obtain ⟨v, dup, serial⟩ := dup2_console closed
  have call : (onVfs (FileCall.dup2 1 3).exec).run (thirdMapped fs d) = some (.done 3 [], Kernel.setFiles (thirdMapped fs d) v) :=
    run_onVfs (run_bind_some dup)
  have run : ∃ t, TracedRun 0x110000 (fun _ _ => True) (fileProcess fs d noMappings) (fun _ => none) t (thirdOrigin i) ∧
      (t.current.vmas.entry 0).used = true ∧ (t.current.vmas.entry 0).fd = 3 ∧ (t.current.fds 3).ops = some .serial :=
    ⟨_, first.step trivial (.file call) rfl, rfl, rfl, serial⟩
  obtain ⟨t, run, used, named, console⟩ := run
  have gone : fileOf (Kernel.files t) 3 = none := by
    refine Option.eq_none_iff_forall_ne_some.mpr fun other found => ?_
    obtain ⟨k, name, still⟩ := fileOf_eq_some.mp found
    obtain rfl : k = 3 := by omega
    cases console.symm.trans still.ops
  refine ⟨fs, d, i, t, ⟨128, img, _, s₀, by decide, made, mounted, reach⟩, ?_, run, rfl, used, named, console, gone⟩
  rw [file.rep.inode i file.bound, file.empty]
  decide

end SwiftBSD.Proof.User
