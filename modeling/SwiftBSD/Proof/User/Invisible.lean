import SwiftBSD.Proof.User.Heap
import SwiftBSD.Proof.User.Program
import SwiftBSD.Proof.Vfs.Positions
import SwiftBSD.User.Mapped

namespace SwiftBSD.Proof.User
open Lib SwiftBSD.Fs SwiftBSD.Mm SwiftBSD.Vfs SwiftBSD.Sched SwiftBSD.User SwiftBSD.Proof.Mm SwiftBSD.Proof.Sched

variable {σ α : Type} {m m' : Machine} {pagePml4 virt cr2 errorCode addr stop : UInt64}

def Dirty (mem : Mem) (pagePml4 p : UInt64) : Prop :=
  ∃ pt, lastTable mem pagePml4 p = some pt ∧ mem (frameOf pt) (index 0 p) &&& pgPresent ≠ 0 ∧
    mem (frameOf pt) (index 0 p) &&& pgDirty ≠ 0

section Clear
variable {mem mem' : Mem} (cleared : Cleared mem mem')
include cleared

theorem Cleared.word {f i : Nat} {bit : UInt64} (set : mem' f i &&& bit ≠ 0) : mem' f i = mem f i := by
  rcases cleared f i with same | zero
  · exact same
  · rw [zero, UInt64.zero_and] at set
    exact (set rfl).elim

theorem Cleared.lastTable {p pt : UInt64} (found : lastTable mem' pagePml4 p = some pt) : lastTable mem pagePml4 p = some pt := by
  unfold Mm.lastTable at found ⊢
  dsimp only at found ⊢
  split at found
  · cases found
  next three =>
  have same := cleared.word three
  rw [same] at three found
  rw [if_neg three]
  split at found
  · cases found
  next two =>
  have same := cleared.word two
  rw [same] at two found
  rw [if_neg two]
  split at found
  · cases found
  next one =>
  have same := cleared.word one
  rw [same] at one found
  rw [if_neg one]
  exact found

theorem Cleared.dirty {p : UInt64} (dirty : Dirty mem' pagePml4 p) : Dirty mem pagePml4 p := by
  obtain ⟨pt, found, present, set⟩ := dirty
  have same := cleared.word present
  rw [same] at present set
  exact ⟨pt, cleared.lastTable found, present, set⟩

end Clear

/-- The files, with the descriptors of the running process. -/
def Kernel.files (s : Kernel σ) : VfsState σ := { s.vfs with fds := s.current.fds }

structure SameFiles (s t : Kernel σ) : Prop where
  files : Kernel.files t = Kernel.files s
  current : t.currentIdx = s.currentIdx
  others : ∀ p, (t.procs p).fds = (s.procs p).fds

section Same
variable {s t u : Kernel σ}

theorem SameFiles.refl (s : Kernel σ) : SameFiles s s := ⟨rfl, rfl, fun _ => rfl⟩

theorem SameFiles.trans (first : SameFiles s t) (second : SameFiles t u) : SameFiles s u :=
  ⟨second.files.trans first.files, second.current.trans first.current, fun p => (second.others p).trans (first.others p)⟩

theorem sameFiles_of (files : { t.vfs with fds := s.current.fds } = Kernel.files s) (current : t.currentIdx = s.currentIdx)
    (others : ∀ p, (t.procs p).fds = (s.procs p).fds) : SameFiles s t := by
  refine ⟨?_, current, others⟩
  have fds : t.current.fds = s.current.fds := by
    unfold Kernel.current
    rw [current]
    exact others _
  unfold Kernel.files
  rw [fds]
  exact files

theorem sameFiles_onMachine {x : MmM α} {a : α} (run : (onMachine x).run s = some (a, t)) :
    SameFiles s t ∧ t.current.vmas = s.current.vmas := by
  obtain ⟨m, -, rfl⟩ := onMachine_run run
  exact ⟨sameFiles_of rfl rfl fun _ => rfl, rfl⟩

theorem setProc_fds {p : Process} (same : p.fds = s.current.fds) (i : Nat) :
    ((s.setProc s.currentIdx p).procs i).fds = (s.procs i).fds := by
  unfold Kernel.setProc
  by_cases here : i = s.currentIdx
  · subst here
    dsimp only
    rw [Function.update_self, same]
    rfl
  · dsimp only
    rw [Function.update_of_ne here]

theorem current_setProc (s : Kernel σ) (p : Process) : (s.setProc s.currentIdx p).procs s.currentIdx = p := Function.update_self _ _ _

/-- The running process goes on with other files. -/
def Kernel.setFiles (s : Kernel σ) (v : VfsState σ) : Kernel σ :=
  { s.setProc s.currentIdx { s.current with fds := v.fds } with vfs := v }

theorem files_setFiles (s : Kernel σ) (v : VfsState σ) : Kernel.files (Kernel.setFiles s v) = v := by
  have fds : ((s.setProc s.currentIdx { s.current with fds := v.fds }).procs s.currentIdx).fds = v.fds :=
    congrArg Process.fds (current_setProc s _)
  exact congrArg (fun fds => { v with fds }) fds

theorem vmas_setFiles (s : Kernel σ) (v : VfsState σ) : (Kernel.setFiles s v).current.vmas = s.current.vmas := by
  have vmas := congrArg Process.vmas (current_setProc s { s.current with fds := v.fds })
  exact vmas

theorem onVfs_files {x : VfsM σ α} {a : α} (run : (onVfs x).run s = some (a, t)) :
    ∃ v, x.run (Kernel.files s) = some (a, v) ∧ t = Kernel.setFiles s v := by
  obtain ⟨⟨b, v⟩, here, same⟩ := Option.map_eq_some_iff.mp run
  cases same
  exact ⟨v, here, rfl⟩

theorem run_onVfs {x : VfsM σ α} {a : α} {v : VfsState σ} (run : x.run (Kernel.files s) = some (a, v)) :
    (onVfs x).run s = some (a, Kernel.setFiles s v) := by
  change (x.run (Kernel.files s)).map _ = _
  rw [run]
  rfl

theorem sameFiles_onVfs {x : VfsM σ α} {a : α} (none : x.run (Kernel.files s) = some (a, Kernel.files s))
    (run : (onVfs x).run s = some (a, t)) : SameFiles s t ∧ t.machine = s.machine ∧ t.current.vmas = s.current.vmas := by
  obtain ⟨v, here, rfl⟩ := onVfs_files run
  obtain rfl : v = Kernel.files s := congrArg Prod.snd (Option.some.inj (here.symm.trans none))
  exact ⟨sameFiles_of rfl rfl (setProc_fds rfl), rfl, vmas_setFiles s _⟩

theorem setVmas_run {v : Vmas} (run : (Mapped.setVmas v).run s = some ((), t)) :
    SameFiles s t ∧ t.machine = s.machine ∧ t.current.vmas = v := by
  cases run
  exact ⟨sameFiles_of rfl rfl (setProc_fds rfl), rfl, congrArg Process.vmas (current_setProc s _)⟩

end Same

section Handler
variable [BlockStore σ] {s t : Kernel σ} {v : VfsState σ} {fd : Int}

omit [BlockStore σ] in
theorem vfsLseek_closed (closed : SwiftBSD.Vfs.fdOpen v.fds fd = false) (offset : UInt64) (whence : Int) :
    (vfsLseek fd offset whence).run v = some (-1, v) := by
  unfold vfsLseek
  rw [run_bind_some (x := get) rfl, closed]
  rfl

omit [BlockStore σ] in
theorem vfsLseek_open (opened : SwiftBSD.Vfs.fdOpen v.fds fd = true) (offset : UInt64) : (vfsLseek fd offset 0).run v =
    some (toInt offset.toUInt32, { v with fds := Function.update v.fds fd.toNat { v.fds fd.toNat with pos := offset } }) := by
  unfold vfsLseek
  rw [run_bind_some (x := get) rfl, opened]
  rfl

theorem vfsRead_closed (closed : SwiftBSD.Vfs.fdOpen v.fds fd = false) (sz : UInt32) :
    (vfsRead fd sz).run v = some (.done (-1) [], v) := by
  have start : (vfsReadStart fd sz).run v = some (.done (-1) [], v) := by
    unfold vfsReadStart
    rw [run_bind_some (x := get) rfl, closed]
    rfl
  unfold vfsRead
  rw [run_bind_some start]
  rfl

/-- A page that is read from an open descriptor. -/
def Fills (s : Kernel σ) (cr2 : UInt64) : Prop :=
  0x1000000 ≤ cr2 ∧ ∃ i, coveringVma s.current.vmas cr2 = some i ∧ 0 ≤ (s.current.vmas.entry i).fd ∧
    SwiftBSD.Vfs.fdOpen s.current.fds (s.current.vmas.entry i).fd.toInt = true

theorem fillPage_closed {w : Vma} {page : UInt64} (closed : 0 ≤ w.fd → SwiftBSD.Vfs.fdOpen s.current.fds w.fd.toInt = false)
    (run : (fillPage w page).run s = some ((), t)) : SameFiles s t ∧ t.current.vmas = s.current.vmas := by
  unfold fillPage at run
  split at run
  swap
  · cases run
    exact ⟨.refl _, rfl⟩
  next file =>
  have closed := closed file
  dsimp only at run
  obtain ⟨r, s₁, seek, run⟩ := run_bind_eq_some.mp run
  obtain ⟨n, s₂, read, run⟩ := run_bind_eq_some.mp run
  obtain ⟨-, rfl⟩ := pure_run run
  obtain ⟨w₁, sought, -⟩ := onVfs_run seek
  have none := vfsLseek_closed (v := Kernel.files s) closed (w.foff + (page - w.start)) 0
  obtain rfl : r = -1 := congrArg Prod.fst (Option.some.inj (sought.symm.trans none))
  obtain ⟨same₁, -, vmas₁⟩ := sameFiles_onVfs none seek
  have closed₁ : SwiftBSD.Vfs.fdOpen (Kernel.files s₁).fds w.fd.toInt = false := by
    rw [same₁.files]
    exact closed
  unfold readInto at read
  obtain ⟨progress, s₃, inner, read⟩ := run_bind_eq_some.mp read
  have nothing := vfsRead_closed closed₁ 4096
  obtain ⟨w₂, taken, -⟩ := onVfs_run inner
  obtain rfl : progress = .done (-1) [] := congrArg Prod.fst (Option.some.inj (taken.symm.trans nothing))
  obtain ⟨same₂, -, vmas₂⟩ := sameFiles_onVfs nothing inner
  dsimp only at read
  obtain ⟨_, s₄, store, read⟩ := run_bind_eq_some.mp read
  obtain ⟨-, rfl⟩ := pure_run read
  obtain ⟨same₃, vmas₃⟩ := sameFiles_onMachine store
  exact ⟨(same₁.trans same₂).trans same₃, vmas₃.trans (vmas₂.trans vmas₁)⟩

theorem vmaFault_closed {w : Vma} {write : Bool} (closed : 0 ≤ w.fd → SwiftBSD.Vfs.fdOpen s.current.fds w.fd.toInt = false)
    (run : (vmaFault w cr2 write).run s = some ((), t)) : SameFiles s t ∧ t.current.vmas = s.current.vmas := by
  unfold vmaFault at run
  dsimp only at run
  obtain ⟨a, s₁, alloc, run⟩ := run_bind_eq_some.mp run
  obtain ⟨m₁, -, rfl⟩ := onMachine_run alloc
  split at run
  · cases run
  obtain ⟨_, s₂, map, run⟩ := run_bind_eq_some.mp run
  obtain ⟨m₂, -, rfl⟩ := onMachine_run map
  obtain ⟨same, vmas⟩ := fillPage_closed (s := { s with machine := m₂ }) closed run
  exact ⟨(sameFiles_of rfl rfl fun _ => rfl : SameFiles s { s with machine := m₂ }).trans same, vmas⟩

theorem handler_vma {i : Nat} (absent : errorCode &&& pfPresent = 0) (read : errorCode &&& pfWrite = 0) (above : 0x1000000 ≤ cr2)
    (found : coveringVma s.current.vmas cr2 = some i) :
    (exceptionHandler cr2 errorCode).run s = (vmaFault (s.current.vmas.entry i) cr2 false).run s := by
  unfold exceptionHandler
  dsimp only
  rw [if_neg (fun all => all.2.1 read), if_neg (fun all => all.2.1 read), if_pos ⟨not_not.mpr absent, above⟩]
  rw [run_bind_some (x := get) rfl, found, read]
  rfl

theorem handler_sameFiles (quiet : errorCode &&& pfPresent = 0 → errorCode &&& pfWrite = 0 → ¬Fills s cr2)
    (run : (exceptionHandler cr2 errorCode).run s = some ((), t)) : SameFiles s t ∧ t.current.vmas = s.current.vmas := by
  unfold exceptionHandler at run
  dsimp only at run
  split at run
  · exact sameFiles_onMachine run
  next notMoved =>
  split at run
  · exact sameFiles_onMachine run
  next notZero =>
  split at run
  · next absent =>
      rw [run_bind_some (x := get) rfl] at run
      split at run
      · next i found =>
          refine vmaFault_closed (fun file => ?_) run
          by_contra opened
          have read : errorCode &&& pfWrite = 0 := by
            by_contra write
            exact notZero ⟨absent.1, write, absent.2⟩
          exact quiet (not_not.mp absent.1) read ⟨absent.2, i, found, file, (Bool.not_eq_false _).mp opened⟩
      · cases run
  · cases run

end Handler

/-- A mapping whose pages are written back to a file. -/
def Shared (v : Vma) : Prop := 0 ≤ v.fd ∧ v.flags &&& 1 ≠ 0

/-- No page from `start` to `stop` is written back to the file of `v`. -/
def Synced (mem : Mem) (pagePml4 : UInt64) (v : Vma) (start stop : UInt64) : Prop :=
  Shared v → ∀ k < pageCount start stop, ¬Dirty mem pagePml4 (start + 4096 * .ofNat k)

/-- The mappings that `SC_MUNMAP` takes out of the table, from slot `i` on. -/
def unmapped (addr stop : UInt64) : Nat → Nat → Vmas → List Vma
  | 0, _, _ => []
  | fuel+1, i, t =>
      if vmaMax ≤ i then []
      else if overlaps (t.entry i) addr stop then
        match cutOut t i addr stop with
        | none => []
        | some (j, t) => t.entry j :: unmapped addr stop fuel (j + 1) (vmaTryMerge (freeSlot t j) j)
      else unmapped addr stop fuel (i + 1) t

section Writeback
variable [BlockStore σ] {s t : Kernel σ} {v : Vma} {start p : UInt64}

theorem writebackPage_synced (clean : ¬Dirty s.machine.mem pagePml4 p) (run : (Mapped.writebackPage pagePml4 v p).run s = some ((), t)) :
    t = s := by
  unfold Mapped.writebackPage at run
  obtain ⟨found, s₁, look, run⟩ := run_bind_eq_some.mp run
  obtain ⟨m, walk, rfl⟩ := onMachine_run look
  obtain ⟨rfl, value⟩ := vmmPtLookup_run walk
  cases found with
  | none =>
      obtain ⟨-, rfl⟩ := pure_run run
      rfl
  | some entry =>
      obtain ⟨pt, i⟩ := entry
      dsimp only at run
      split at value
      · cases value
      next last =>
      split at value
      · cases value
      next present =>
      cases value
      rw [run_bind_some (run_onMachine (x := word _ _) rfl)] at run
      split at run
      · next dirty => exact (clean ⟨_, last, present, dirty⟩).elim
      · obtain ⟨-, rfl⟩ := pure_run run
        rfl

theorem writeback_synced (clean : Synced s.machine.mem pagePml4 v start stop)
    (run : (Mapped.vmaWritebackDirty pagePml4 start stop v).run s = some ((), t)) : t = s := by
  unfold Mapped.vmaWritebackDirty at run
  split at run
  · obtain ⟨-, rfl⟩ := pure_run run
    rfl
  next shared =>
  unfold Mapped.forPages at run
  split at run
  swap
  · cases run
  refine forRange_run (fun _ (u : Kernel σ) => u = s) rfl ?_ run
  rintro k u w - upper rfl step
  rw [Nat.zero_add] at upper
  refine writebackPage_synced (clean ⟨?_, fun zero => shared (.inr zero)⟩ k upper) step
  exact Int32.not_lt.mp fun negative => shared (.inl negative)

omit [BlockStore σ] in
theorem unmapPages_run (run : (Mapped.vmaUnmapPages pagePml4 start stop).run s = some ((), t)) :
    SameFiles s t ∧ t.current.vmas = s.current.vmas ∧ Cleared s.machine.mem t.machine.mem := by
  unfold Mapped.vmaUnmapPages Mapped.forPages at run
  split at run
  swap
  · cases run
  refine forRange_run (fun _ (u : Kernel σ) => SameFiles s u ∧ u.current.vmas = s.current.vmas ∧ Cleared s.machine.mem u.machine.mem)
    ⟨.refl s, rfl, fun _ _ => .inl rfl⟩ ?_ run
  rintro k u w - - ⟨same, vmas, cleared⟩ step
  obtain ⟨same', vmas'⟩ := sameFiles_onMachine step
  obtain ⟨n, unmap, rfl⟩ := onMachine_run step
  exact ⟨same.trans same', vmas'.trans vmas, cleared.trans (cleared_unmap unmap).1⟩

theorem unmapSlot_run {j : Nat} (clean : Synced s.machine.mem pagePml4 (s.current.vmas.entry j) (s.current.vmas.entry j).start
      (s.current.vmas.entry j).stop) (run : (Mapped.unmapSlot pagePml4 j).run s = some ((), t)) :
    SameFiles s t ∧ t.current.vmas = vmaTryMerge (freeSlot s.current.vmas j) j ∧ Cleared s.machine.mem t.machine.mem := by
  unfold Mapped.unmapSlot at run
  rw [run_bind_some (x := get) rfl] at run
  obtain ⟨_, s₁, back, run⟩ := run_bind_eq_some.mp run
  obtain rfl := writeback_synced clean back
  obtain ⟨_, s₂, unmap, run⟩ := run_bind_eq_some.mp run
  obtain ⟨same, vmas, cleared⟩ := unmapPages_run unmap
  rw [run_bind_some (x := get) rfl] at run
  obtain ⟨same', machine, vmas'⟩ := setVmas_run run
  rw [vmas] at vmas'
  rw [← machine] at cleared
  exact ⟨same.trans same', vmas', cleared⟩

theorem unmapFrom_sameFiles {fuel i : Nat} {r : Bool} {mem : Mem} (cleared : Cleared mem s.machine.mem)
    (clean : ∀ v ∈ unmapped addr stop fuel i s.current.vmas, Synced mem pagePml4 v v.start v.stop)
    (run : (Mapped.unmapFrom pagePml4 addr stop fuel i).run s = some (r, t)) : SameFiles s t := by
  induction fuel generalizing i s with
  | zero => cases run
  | succ fuel ih =>
      unfold Mapped.unmapFrom at run
      unfold unmapped at clean
      split at run
      · obtain ⟨-, rfl⟩ := pure_run run
        exact .refl _
      next inside =>
      rw [if_neg inside] at clean
      rw [run_bind_some (x := get) rfl] at run
      change (if overlaps (s.current.vmas.entry i) addr stop = true then _ else _ : KernelM σ Bool).run s = _ at run
      split at run
      swap
      · next apart =>
          rw [if_neg apart] at clean
          exact ih cleared clean run
      next overlap =>
      rw [if_pos overlap] at clean
      cases cut : cutOut s.current.vmas i addr stop with
      | none =>
          rw [cut] at run
          obtain ⟨-, rfl⟩ := pure_run run
          exact .refl _
      | some piece =>
          obtain ⟨j, v⟩ := piece
          rw [cut] at run clean
          dsimp only at run clean
          obtain ⟨_, s₁, place, run⟩ := run_bind_eq_some.mp run
          obtain ⟨same₁, machine, vmas⟩ := setVmas_run place
          obtain ⟨_, s₂, slot, run⟩ := run_bind_eq_some.mp run
          have cleared₁ : Cleared mem s₁.machine.mem := by rwa [machine]
          have here : Synced s₁.machine.mem pagePml4 (s₁.current.vmas.entry j) (s₁.current.vmas.entry j).start
              (s₁.current.vmas.entry j).stop := by
            rw [vmas]
            intro shared k small dirty
            exact clean _ (List.mem_cons_self ..) shared k small (cleared₁.dirty dirty)
          obtain ⟨same₂, vmas₂, cleared₂⟩ := unmapSlot_run here slot
          have rest := ih (cleared₁.trans cleared₂) (fun w member => clean w (by
            rw [vmas₂, vmas] at member
            exact List.mem_cons_of_mem _ member)) run
          exact (same₁.trans same₂).trans rest

theorem munmap_sameFiles {fuel : Nat} {length r : UInt64}
    (clean : ∀ v ∈ unmapped addr (addr + roundUp length) fuel 0 s.current.vmas, Synced s.machine.mem pagePml4 v v.start v.stop)
    (run : (Mapped.scMunmap pagePml4 fuel addr length).run s = some (r, t)) : SameFiles s t := by
  unfold Mapped.scMunmap at run
  split at run
  · obtain ⟨-, rfl⟩ := pure_run run
    exact .refl _
  obtain ⟨whole, u, loop, run⟩ := run_bind_eq_some.mp run
  have same := unmapFrom_sameFiles (fun _ _ => .inl rfl) clean loop
  split at run
  · obtain ⟨-, rfl⟩ := pure_run run
    exact same
  · obtain ⟨-, rfl⟩ := pure_run run
    exact same

/-- The part of a mapping that `SC_MSYNC` looks at. -/
def syncStart (v : Vma) (addr : UInt64) : UInt64 := if v.start < addr then addr else v.start

def syncStop (v : Vma) (stop : UInt64) : UInt64 := if stop < v.stop then stop else v.stop

theorem msync_same {length r : UInt64}
    (clean : ∀ i < vmaMax, overlaps (s.current.vmas.entry i) addr (addr + roundUp length) = true →
      Synced s.machine.mem pagePml4 (s.current.vmas.entry i) (syncStart (s.current.vmas.entry i) addr)
        (syncStop (s.current.vmas.entry i) (addr + roundUp length)))
    (run : (Mapped.scMsync pagePml4 addr length).run s = some (r, t)) : t = s := by
  unfold Mapped.scMsync at run
  split at run
  · obtain ⟨-, rfl⟩ := pure_run run
    rfl
  obtain ⟨_, u, loop, run⟩ := run_bind_eq_some.mp run
  obtain ⟨-, rfl⟩ := pure_run run
  refine forRange_run (fun _ (w : Kernel σ) => w = s) rfl ?_ loop
  rintro i u w - upper rfl step
  rw [Nat.zero_add] at upper
  unfold Mapped.syncSlot at step
  rw [run_bind_some (x := get) rfl] at step
  dsimp only at step
  split at step
  · next overlap => exact writeback_synced (clean i upper overlap) step
  · obtain ⟨-, rfl⟩ := pure_run step
    rfl

end Writeback

open Mapped (PagingCall FileCall MapEvent MapStep MapRun FileRun)

section Run
variable [BlockStore σ] {s t u : Kernel σ}

theorem userAccess_sameFiles {write : Bool} {tr : Translation}
    (quiet : write = false → translate s.machine.mem s.machine.cr3 virt = none → ¬Fills s virt)
    (run : (Mapped.userAccess virt write).run s = some (tr, t)) : SameFiles s t ∧ t.current.vmas = s.current.vmas := by
  unfold Mapped.userAccess at run
  dsimp only at run
  rw [run_bind_some (x := get) rfl] at run
  split at run
  · cases run
  split at run
  · next tr' here =>
      split at run
      · obtain ⟨-, rfl⟩ := pure_run run
        exact ⟨.refl _, rfl⟩
      obtain ⟨_, s₁, fault, run⟩ := run_bind_eq_some.mp run
      have same := handler_sameFiles (fun absent => absurd absent (by cases write <;> decide)) fault
      obtain ⟨tr'', s₂, walk, run⟩ := run_bind_eq_some.mp run
      obtain ⟨same', vmas'⟩ := sameFiles_onMachine walk
      split at run
      · obtain ⟨-, rfl⟩ := pure_run run
        exact ⟨same.1.trans same', vmas'.trans same.2⟩
      · cases run
  · next absent =>
      obtain ⟨_, s₁, fault, run⟩ := run_bind_eq_some.mp run
      have same : SameFiles s s₁ ∧ s₁.current.vmas = s.current.vmas := by
        refine handler_sameFiles (fun _ read => ?_) fault
        cases write with
        | false => exact quiet rfl absent
        | true => exact absurd read (by decide)
      obtain ⟨tr'', s₂, walk, run⟩ := run_bind_eq_some.mp run
      obtain ⟨same', vmas'⟩ := sameFiles_onMachine walk
      split at run
      · obtain ⟨-, rfl⟩ := pure_run run
        exact ⟨same.1.trans same', vmas'.trans same.2⟩
      · cases run

/-- A call fills no page from an open descriptor, and writes none back. -/
def Quiet (pagePml4 : UInt64) (s : Kernel σ) : PagingCall → Prop
  | .mmap _ _ _ _ | .store _ _ | .dirty _ => True
  | .munmap addr length => ∀ fuel, ∀ v ∈ unmapped addr (addr + roundUp length) fuel 0 s.current.vmas,
      Synced s.machine.mem pagePml4 v v.start v.stop
  | .msync addr length => ∀ i < vmaMax, overlaps (s.current.vmas.entry i) addr (addr + roundUp length) = true →
      Synced s.machine.mem pagePml4 (s.current.vmas.entry i) (syncStart (s.current.vmas.entry i) addr)
        (syncStop (s.current.vmas.entry i) (addr + roundUp length))
  | .fault cr2 errorCode => errorCode &&& pfPresent = 0 → errorCode &&& pfWrite = 0 → ¬Fills s cr2
  | .load virt => translate s.machine.mem s.machine.cr3 virt = none → ¬Fills s virt

/-- A step of a run that calls on files cannot notice. -/
def Unnoticed (pagePml4 : UInt64) (s : Kernel σ) : MapEvent → Prop
  | .file _ _ => True
  | .paging call => Quiet pagePml4 s call

theorem paging_sameFiles {fuel : Nat} {call : PagingCall} (quiet : Quiet pagePml4 s call)
    (run : (call.exec pagePml4 fuel).run s = some ((), t)) : SameFiles s t := by
  cases call with
  | mmap addr length arg3 offset =>
      obtain ⟨r, s₁, map, run⟩ := run_bind_eq_some.mp run
      obtain ⟨-, rfl⟩ := pure_run run
      unfold Mapped.scMmap at map
      dsimp only at map
      split at map
      · obtain ⟨-, rfl⟩ := pure_run map
        exact .refl _
      rw [run_bind_some (x := get) rfl] at map
      split at map
      · obtain ⟨-, rfl⟩ := pure_run map
        exact .refl _
      · obtain ⟨_, s₂, place, map⟩ := run_bind_eq_some.mp map
        obtain ⟨-, rfl⟩ := pure_run map
        exact (setVmas_run place).1
  | munmap addr length =>
      obtain ⟨r, s₁, unmap, run⟩ := run_bind_eq_some.mp run
      obtain ⟨-, rfl⟩ := pure_run run
      exact munmap_sameFiles (quiet fuel) unmap
  | msync addr length =>
      obtain ⟨r, s₁, sync, run⟩ := run_bind_eq_some.mp run
      obtain ⟨-, rfl⟩ := pure_run run
      rw [msync_same quiet sync]
      exact .refl _
  | fault cr2 errorCode => exact (handler_sameFiles quiet run).1
  | load virt =>
      obtain ⟨b, s₁, load, run⟩ := run_bind_eq_some.mp run
      obtain ⟨-, rfl⟩ := pure_run run
      unfold Mapped.loadByte at load
      obtain ⟨tr, s₂, access, load⟩ := run_bind_eq_some.mp load
      rw [run_bind_some (x := get) rfl] at load
      obtain ⟨-, rfl⟩ := pure_run load
      exact (userAccess_sameFiles (fun _ => quiet) access).1
  | store virt b =>
      change (Mapped.storeByte virt b).run s = _ at run
      unfold Mapped.storeByte at run
      obtain ⟨tr, s₁, access, run⟩ := run_bind_eq_some.mp run
      obtain ⟨_, s₂, store, run⟩ := run_bind_eq_some.mp run
      have first := (userAccess_sameFiles (fun read => by cases read) access).1
      exact (first.trans (sameFiles_onMachine store).1).trans (sameFiles_onMachine run).1
  | dirty virt => exact (sameFiles_onMachine run).1

theorem file_run {call : FileCall} {result : Vfs.Progress} (run : (onVfs call.exec).run s = some (result, t)) :
    call.exec.run (Kernel.files s) = some (result, Kernel.files t) ∧ t.currentIdx = s.currentIdx ∧
      ∀ p, p ≠ s.currentIdx → (t.procs p).fds = (s.procs p).fds := by
  obtain ⟨v, here, rfl⟩ := onVfs_files run
  refine ⟨?_, rfl, fun p other => ?_⟩
  · rw [files_setFiles]
    exact here
  · unfold Kernel.setFiles Kernel.setProc
    dsimp only
    rw [Function.update_of_ne other]

/-- The calls on files of a run, with their results. -/
def fileCalls (events : List MapEvent) : List (FileCall × Vfs.Progress) := events.filterMap fun
  | .file call result => some (call, result)
  | .paging _ => none

/-- The size of the file of an inode, as the file system reads it. -/
def fileSize (s : Kernel σ) (i : Nat) : Option UInt64 := ((inodeRead i).run s.vfs.fs).map fun x => x.1.size

theorem run_files {events : List MapEvent} (run : MapRun pagePml4 (Unnoticed pagePml4) s events t) :
    FileRun (Kernel.files s) (fileCalls events) (Kernel.files t) ∧ t.currentIdx = s.currentIdx ∧
      ∀ p, p ≠ s.currentIdx → (t.procs p).fds = (s.procs p).fds := by
  induction run with
  | start => exact ⟨.start, rfl, fun _ _ => rfl⟩
  | @step events e t u before allowed step ih =>
      obtain ⟨files, current, others⟩ := ih
      unfold fileCalls at files ⊢
      rw [List.filterMap_append]
      cases step with
      | file run =>
          obtain ⟨call, current', others'⟩ := file_run run
          refine ⟨.call files call, current'.trans current, fun p other => ?_⟩
          rw [others' p (by rw [current]; exact other), others p other]
      | paging run =>
          have same := paging_sameFiles allowed run
          refine ⟨?_, same.current.trans current, fun p other => (same.others p).trans (others p other)⟩
          rw [same.files]
          simpa using files

theorem fileRun_nil {v w : VfsState σ} {calls : List (FileCall × Vfs.Progress)} (run : FileRun v calls w) (none : calls = []) : w = v := by
  cases run with
  | start => rfl
  | call _ _ => simp at none

/-- The process sees of its files what it would see if it did not map any. -/
theorem paging_invisible {events : List MapEvent} (run : MapRun pagePml4 (Unnoticed pagePml4) s events t) :
    FileRun (Kernel.files s) (fileCalls events) (Kernel.files t) ∧
      (∀ p, p ≠ s.currentIdx → (t.procs p).fds = (s.procs p).fds) ∧
      (fileCalls events = [] → (∀ p fd, ((t.procs p).fds fd).pos = ((s.procs p).fds fd).pos) ∧ ∀ i, fileSize t i = fileSize s i) := by
  obtain ⟨files, current, others⟩ := run_files run
  refine ⟨files, others, fun none => ?_⟩
  have same := fileRun_nil files none
  refine ⟨fun p fd => ?_, fun i => ?_⟩
  · by_cases here : p = s.currentIdx
    · have fds := congrArg VfsState.fds same
      change (t.procs t.currentIdx).fds = (s.procs s.currentIdx).fds at fds
      rw [current] at fds
      rw [here, fds]
    · rw [others p here]
  · have fs := congrArg VfsState.fs same
    change t.vfs.fs = s.vfs.fs at fs
    unfold fileSize
    rw [fs]

end Run

open SwiftBSD.Proof.Fs SwiftBSD.Proof.Vfs

def oneMapping : Vmas := ⟨Function.update (fun _ => ⟨0, 0, 0, 0, 0, 0, false⟩) 0 ⟨0x40000000, 0x40002000, 3, 1, 3, 0, true⟩, 1⟩

theorem oneMapping_covers : coveringVma oneMapping 0x40001000 = some 0 := by decide +kernel

/-- A process with the file of descriptor `d` open in slot 3. -/
def fileProcess (fs : FsState Disk) (d : Nat) (vmas : Vmas) : Kernel Disk := { bootProcess with
  procs := Function.update (fun _ => noProcess) 0 { noProcess with
    used := true
    pid := 1
    vmas
    fds := (oneSlot fs d).fds }
  vfs := oneSlot fs d }

/-- The files of the process after `vfs_lseek`. -/
def soughtFiles (fs : FsState Disk) (d : Nat) : VfsState Disk :=
  { oneSlot fs d with fds := Function.update (oneSlot fs d).fds 3 { (oneSlot fs d).fds 3 with pos := 4096 } }

theorem soughtFiles_pos (fs : FsState Disk) (d : Nat) : ((soughtFiles fs d).fds 3).pos = 4096 := by
  unfold soughtFiles
  dsimp only
  rw [Function.update_self]

theorem soughtFiles_denotes {fs : FsState Disk} {d file : Nat} (denotes : Denotes (oneSlot fs d) 3 file) :
    Denotes (soughtFiles fs d) 3 file := by
  refine ⟨by decide, ?_, ?_, ?_, ?_, denotes.live⟩ <;> unfold soughtFiles <;> dsimp only <;> rw [Function.update_self]
  · exact denotes.used
  · exact denotes.ops
  · exact denotes.descriptor
  · exact denotes.inode

theorem read_behind_end {fs : FsState Disk} {V : Vol} {D : Nat → List (List Rec)} {i d : Nat} (file : NewFile fs V D i d) :
    ∃ v, (vfsRead 3 4096).run (soughtFiles fs d) = some (.done 0 [], v) ∧ (v.fds 3).pos = 4096 := by
  obtain ⟨owned, denotes⟩ := newFile_slot file
  have denotes' := soughtFiles_denotes denotes
  have pos := soughtFiles_pos fs d
  have size : (inodeAt (soughtFiles fs d).fs i).size.toNat = 0 := by
    change (inodeAt fs i).size.toNat = 0
    rw [file.rep.inode i file.bound, file.empty]
    rfl
  have readable : ((soughtFiles fs d).fs.fds ((soughtFiles fs d).fds 3).priv).flags ≠ oWronly := by
    have priv : ((soughtFiles fs d).fds 3).priv = d := by
      unfold soughtFiles
      dsimp only
      rw [Function.update_self]
      rfl
    change (fs.fds _).flags ≠ oWronly
    rw [priv, file.rep.fds, file.descriptor]
    change oCreat ||| oRdwr ≠ oWronly
    decide
  have fits : SwiftBSD.Proof.Vfs.Fits (soughtFiles fs d) 3 i (.read 3 4096) := by
    unfold SwiftBSD.Proof.Vfs.Fits
    dsimp only
    rw [pos, if_pos (by decide)]
    exact .inl (by omega)
  obtain ⟨r, bytes, v, run, within, -⟩ := read_honoured (s := soughtFiles fs d) owned denotes' fits readable
  have none : bytes = [] := List.eq_nil_of_length_eq_zero (by
    have count := within.count
    omega)
  have returned := within.returned
  have advanced := within.advanced
  subst none
  rw [pos] at advanced
  rw [returned] at run
  exact ⟨v, run, UInt64.toNat_inj.mp advanced⟩

/-- A page behind the end of the file is read, and the next read of the process starts there. -/
theorem fault_moves_position : ∃ fs d file t, Volume fs ∧ Denotes (Kernel.files (fileProcess fs d oneMapping)) 3 file ∧
    (inodeAt fs file).isDir = false ∧ MapStep 0x110000 (fileProcess fs d oneMapping) (.paging (.fault 0x40001000 4)) t ∧
    ((fileProcess fs d oneMapping).current.fds 3).pos = 0 ∧ (t.current.fds 3).pos = 4096 := by
  obtain ⟨img, s₀, fs, V, D, i, d, made, mounted, reach, file⟩ := newFile_128
  obtain ⟨-, denotes⟩ := newFile_slot file
  obtain ⟨a, m₁, alloc, nonzero⟩ := vmmAllocPage_succeeds (m := bootProcess.machine) (by decide)
    (Nat.lt_of_lt_of_le (by decide) bootProcess_enough)
  obtain ⟨m₂, map⟩ := vmmMapInCr3_total m₁.cr3 0x40001000 a (faultFlags ((fileProcess fs d oneMapping).current.vmas.entry 0) false) m₁
  obtain ⟨v, read, moved⟩ := read_behind_end file
  let s₂ : Kernel Disk := { fileProcess fs d oneMapping with machine := m₂ }
  have seek : (onVfs (vfsLseek 3 4096 0)).run s₂ = some (toInt (4096 : UInt64).toUInt32, Kernel.setFiles s₂ (soughtFiles fs d)) :=
    run_onVfs (vfsLseek_open (v := Kernel.files (fileProcess fs d oneMapping)) denotes.fdOpen 4096)
  have fill : (readInto 3 0x40001000 4096).run (Kernel.setFiles s₂ (soughtFiles fs d)) =
      some (0, Kernel.setFiles (Kernel.setFiles s₂ (soughtFiles fs d)) v) := by
    have inner := run_onVfs (s := Kernel.setFiles s₂ (soughtFiles fs d)) (by rw [files_setFiles]; exact read)
    unfold readInto
    rw [run_bind_some inner]
    rfl
  refine ⟨fs, d, i, Kernel.setFiles (Kernel.setFiles s₂ (soughtFiles fs d)) v, ⟨128, img, _, s₀, by decide, made, mounted, reach⟩, denotes, ?_,
    @MapStep.paging _ _ _ _ _ 0 _ ?_, oneSlot_pos fs d, ?_⟩
  · rw [file.rep.inode i file.bound, file.empty]
    decide
  · change (exceptionHandler 0x40001000 4).run (fileProcess fs d oneMapping) = _
    rw [handler_vma (s := fileProcess fs d oneMapping) (i := 0) (by decide) (by decide) (by decide) oneMapping_covers]
    unfold vmaFault
    dsimp only
    rw [run_bind_some (run_onMachine (s := fileProcess fs d oneMapping) alloc), if_neg nonzero, show (0x40001000 : UInt64) &&& pageMask = 0x40001000 by decide]
    have place : (vmmMap 0x40001000 a (faultFlags ((fileProcess fs d oneMapping).current.vmas.entry 0) false)).run m₁ = some ((), m₂) := by
      unfold vmmMap
      rw [run_bind_some (x := get) rfl]
      exact map
    rw [run_bind_some (run_onMachine (s := { fileProcess fs d oneMapping with machine := m₁ }) place)]
    have entry : (fileProcess fs d oneMapping).current.vmas.entry 0 = ⟨0x40000000, 0x40002000, 3, 1, 3, 0, true⟩ := rfl
    rw [entry]
    unfold fillPage
    rw [if_pos (by decide)]
    change (onVfs (vfsLseek 3 4096 0) >>= _ : KernelM Disk Unit).run s₂ = _
    rw [run_bind_some seek]
    change (readInto 3 0x40001000 4096 >>= _ : KernelM Disk Unit).run (Kernel.setFiles s₂ (soughtFiles fs d)) = _
    rw [run_bind_some fill]
    rfl
  · change ((Kernel.files (Kernel.setFiles (Kernel.setFiles s₂ (soughtFiles fs d)) v)).fds 3).pos = 4096
    rw [files_setFiles]
    exact moved

end SwiftBSD.Proof.User
