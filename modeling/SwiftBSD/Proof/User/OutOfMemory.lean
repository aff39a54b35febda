import SwiftBSD.Proof.User.Program
import SwiftBSD.Proof.Mm.Tables

namespace SwiftBSD.Proof.User
open Lib SwiftBSD.Fs SwiftBSD.Mm SwiftBSD.Vfs SwiftBSD.Sched SwiftBSD.User SwiftBSD.Proof.Mm SwiftBSD.Proof.Sched

variable {σ α : Type} {s t u : Kernel σ} {m m' : Machine} {pagePml4 newBrk : UInt64}

theorem spends_translated (virt : UInt64) : Moves Spends (translated virt) := by
  refine .bind .get fun m => ?_
  split
  · exact .pure _
  · exact .failure

theorem spends_setByteAt (phys : Nat) (b : UInt8) : Moves Spends (setByteAt phys b) :=
  .modify fun m => ⟨rfl, (Spends.refl m).spent⟩

theorem spends_storeWord (virt value : UInt64) : Moves Spends (storeWord virt value) :=
  .bind (spends_translated _) fun _ => .modify fun m => ⟨rfl, (Spends.refl m).spent⟩

theorem spends_loadWords (page : UInt64) (i n : Nat) : Moves Spends (loadWords page i n) := by
  induction n generalizing i with
  | zero => exact .pure _
  | succ n ih =>
      unfold loadWords
      refine .bind (.bind (spends_translated _) fun _ => .bind .get fun _ => .pure _) fun w => ?_
      exact .bind (ih (i+1)) fun _ => .pure _

theorem spends_cowFault (cr2 : UInt64) : Moves Spends (cowFault cr2) := by
  refine .bind .get fun m => .bind Respects.alloc fun newPhys => ?_
  split
  · exact .bind .failure fun _ => .bind (spends_loadWords _ _ _) fun bounce => .bind (moves_vmmMapInCr3 Spends _ _ _ _) fun _ =>
      .forRange (fun i => spends_storeWord _ _) 0 512
  · exact .bind (spends_loadWords _ _ _) fun bounce => .bind (moves_vmmMapInCr3 Spends _ _ _ _) fun _ =>
      .forRange (fun i => spends_storeWord _ _) 0 512

theorem spends_zeroFault (cr2 : UInt64) (user : Bool) : Moves Spends (zeroFault cr2 user) := by
  refine .bind (moves_vmmAllocPage Spends) fun phys => ?_
  split
  · exact .failure
  · exact moves_vmmMap Spends _ _ _

theorem spends_storeBytes (addr : UInt64) (bytes : List UInt8) : Moves Spends (storeBytes addr bytes) :=
  .forRange (fun _ => .bind (spends_translated _) fun _ => spends_setByteAt _ _) 0 _

theorem spends_onVfs (x : VfsM σ α) : Moves KernelSpends (onVfs x) := by
  intro s a t run
  obtain ⟨v, -, files⟩ := onVfs_run run
  unfold KernelSpends
  rw [files.machine]
  exact .refl _

section Faults
variable [BlockStore σ]

theorem spends_readInto (fd : Int) (addr : UInt64) (sz : UInt32) : Moves KernelSpends (readInto fd addr sz : KernelM σ Int) := by
  refine .bind (spends_onVfs _) fun progress => ?_
  cases progress with
  | done ret bytes => exact .bind (spends_onMachine (spends_storeBytes _ _)) fun _ => .pure _
  | waits _ | goes _ => exact .failure

theorem spends_fillPage (v : Vma) (page : UInt64) : Moves KernelSpends (fillPage v page : KernelM σ Unit) := by
  unfold fillPage
  split
  · exact .bind (spends_onVfs _) fun _ => .bind (spends_readInto _ _ _) fun _ => .pure _
  · exact .pure _

theorem spends_vmaFault (v : Vma) (cr2 : UInt64) (write : Bool) : Moves KernelSpends (vmaFault v cr2 write : KernelM σ Unit) := by
  refine .bind (spends_onMachine (moves_vmmAllocPage Spends)) fun phys => ?_
  split
  · exact .failure
  · exact .bind (spends_onMachine (moves_vmmMap Spends _ _ _)) fun _ => spends_fillPage _ _

theorem spends_exceptionHandler (cr2 errorCode : UInt64) :
    Moves KernelSpends (exceptionHandler cr2 errorCode : KernelM σ Unit) := by
  unfold exceptionHandler
  dsimp only
  split
  · exact spends_onMachine (spends_cowFault _)
  split
  · exact spends_onMachine (spends_zeroFault _ _)
  split
  · refine .bind .get fun s => ?_
    split
    · exact spends_vmaFault _ _ _
    · exact .failure
  · exact .failure

theorem spends_kernelStore (virt : UInt64) (b : UInt8) : Moves KernelSpends (kernelStore virt b : KernelM σ Unit) := by
  have access : Moves KernelSpends (kernelAccess virt pfWrite : KernelM σ Translation) := by
    refine .bind .get fun s => ?_
    dsimp only
    split
    · exact .failure
    split
    · exact .pure _
    · exact .bind (spends_exceptionHandler _ _) fun _ => spends_onMachine (spends_translated _)
  exact .bind access fun _ => spends_onMachine (spends_setByteAt _ _)

end Faults

theorem takes_growHeap (v : UInt64) : Takes (growHeap v) := by
  refine .bind takes_pageAlloc fun phys => ?_
  split
  · exact .pure _
  · exact .bind (moves_vmmMap Spends _ _ _) fun _ => .pure _

theorem spends_growHeap (v : UInt64) : Moves Spends (growHeap v) := by
  refine .bind Respects.alloc fun phys => ?_
  split
  · exact .pure _
  · exact .bind (moves_vmmMap Spends _ _ _) fun _ => .pure _

theorem takes_search {body : Nat → MmM (Option α)} {n : Nat} (some_ : 0 < n) (takes : ∀ i, Takes (body i))
    (spends : ∀ i, Moves Spends (body i)) : Takes (searchM body 0 n) := by
  obtain ⟨n, rfl⟩ := Nat.exists_eq_succ_of_ne_zero (by omega : n ≠ 0)
  unfold searchM
  refine .bind (takes 0) fun r => ?_
  cases r with
  | some a => exact .pure _
  | none => exact .search spends 1 n

theorem pageCount_pos {start stop : UInt64} (below : start < stop) : 0 < pageCount start stop := by
  have lt : start.toNat < stop.toNat := below
  unfold pageCount
  omega

theorem takes_growPages {oldPage newPage : UInt64} (below : oldPage < newPage) : Takes (growPages oldPage newPage) :=
  takes_search (pageCount_pos below) (fun _ => takes_growHeap _) fun _ => spends_growHeap _

theorem growPages_empty {oldPage newPage : UInt64} {r : Option Unit} (below : oldPage < newPage) (empty : freeFrames m = ∅)
    (run : (growPages oldPage newPage).run m = some (r, m')) : m' = m := by
  unfold growPages at run
  obtain ⟨n, count⟩ := Nat.exists_eq_succ_of_ne_zero (pageCount_pos below).ne'
  rw [count] at run
  unfold searchM growHeap at run
  obtain ⟨r₁, m₁, first, rest⟩ := run_bind_eq_some.mp run
  obtain ⟨phys, m₂, alloc, failed⟩ := run_bind_eq_some.mp first
  obtain ⟨rfl, rfl⟩ := pageAlloc_empty alloc empty
  rw [if_pos rfl] at failed
  obtain ⟨rfl, rfl⟩ := pure_run failed
  cases rest
  rfl

/-- How `SC_BRK` can return `-1`. The last way is a success: the new break is `-1`. -/
inductive BrkFailed (pagePml4 : UInt64) (s : Kernel σ) (newBrk : UInt64) : Kernel σ → Prop
  | refused (small : newBrk = 0 ∨ newBrk < s.current.heapStart) : BrkFailed pagePml4 s newBrk s
  | noFrame {m : Machine} {oldPage newPage : UInt64} (large : newBrk ≠ 0) (above : ¬newBrk < s.current.heapStart)
      (notMax : newBrk ≠ mapFailed) (below : oldPage < newPage) (run : (growPages oldPage newPage).run s.machine = some (some (), m)) :
      BrkFailed pagePml4 s newBrk { s with machine := m }
  | max {t : Kernel σ} (max : newBrk = mapFailed) (large : newBrk ≠ 0) (above : ¬newBrk < s.current.heapStart)
      (moved : t.current.heapBreak = mapFailed) : BrkFailed pagePml4 s newBrk t

theorem scBrk_failed (run : (scBrk pagePml4 newBrk).run s = some (mapFailed, t)) : BrkFailed pagePml4 s newBrk t := by
  unfold scBrk at run
  rw [run_bind_some (x := get) rfl] at run
  split at run
  · next zero =>
      obtain ⟨-, rfl⟩ := pure_run run
      exact .refused (.inl zero)
  next large =>
  split at run
  · next small =>
      cases run
      exact .refused (.inr small)
  next above =>
  obtain ⟨r, u, moved, run⟩ := run_bind_eq_some.mp run
  obtain ⟨m, moving, rfl⟩ := onMachine_run moved
  cases r with
  | some _ =>
      cases run
      unfold movePages at moving
      split at moving
      · next below =>
          refine .noFrame large above ?_ below moving
          rintro rfl
          have zero : mapFailed + 0xFFF &&& pageMask = 0 := by decide
          rw [zero] at below
          exact absurd below (by grind)
      · split at moving
        · obtain ⟨_, _, -, moving⟩ := run_bind_eq_some.mp moving
          cases moving
        · cases moving
  | none =>
      obtain ⟨_, v, stored, run⟩ := run_bind_eq_some.mp run
      cases stored
      obtain ⟨rfl, rfl⟩ := pure_run run
      refine .max rfl large above ?_
      simp [Kernel.current, Kernel.setProc]

theorem takes_mapZeroPage (page flags : UInt64) : Takes (mapZeroPage page flags) := by
  have zero : Takes pageAllocZero := by
    refine .bind takes_pageAlloc fun p => ?_
    split
    · exact .bind (moves_zero Spends p) fun _ => .pure _
    · exact .pure _
  refine .bind zero fun phys => ?_
  split
  · exact .pure _
  · exact .bind (moves_vmmMap Spends _ _ _) fun _ => .pure _

theorem spends_mapZeroPage (page flags : UInt64) : Moves Spends (mapZeroPage page flags) := by
  have zero : Moves Spends pageAllocZero := by
    refine .bind Respects.alloc fun p => ?_
    split
    · exact .bind (moves_zero Spends p) fun _ => .pure _
    · exact .pure _
  refine .bind zero fun phys => ?_
  split
  · exact .pure _
  · exact .bind (moves_vmmMap Spends _ _ _) fun _ => .pure _

theorem mapZeroPage_empty {page flags : UInt64} {r : Option Unit} (empty : freeFrames m = ∅)
    (run : (mapZeroPage page flags).run m = some (r, m')) : r = some () ∧ m' = m := by
  unfold mapZeroPage pageAllocZero at run
  obtain ⟨phys, m₁, zero, rest⟩ := run_bind_eq_some.mp run
  obtain ⟨p, m₂, alloc, zeroed⟩ := run_bind_eq_some.mp zero
  obtain ⟨rfl, rfl⟩ := pageAlloc_empty alloc empty
  obtain ⟨rfl, rfl⟩ := pure_run zeroed
  rw [if_pos rfl] at rest
  obtain ⟨rfl, rfl⟩ := pure_run rest
  exact ⟨rfl, rfl⟩

theorem spends_mapSegment (flags stop : UInt64) (n : Nat) (page : UInt64) : Moves Spends (mapSegment flags stop n page) := by
  induction n generalizing page with
  | zero => exact .failure
  | succ n ih =>
      unfold mapSegment
      split
      · refine .bind (spends_mapZeroPage _ _) fun r => ?_
        cases r with
        | some _ => exact .pure _
        | none => exact ih _
      · exact .pure _

theorem mapSegment_failed {flags stop page : UInt64} {n : Nat}
    (run : (mapSegment flags stop n page).run m = some (some (), m')) : (freeFrames m').card ≤ (freeFrames m).card - 1 := by
  induction n generalizing page m with
  | zero => cases run
  | succ n ih =>
      unfold mapSegment at run
      split at run
      · obtain ⟨r, m₁, first, rest⟩ := run_bind_eq_some.mp run
        have took := takes_mapZeroPage _ _ _ _ _ first
        cases r with
        | some _ =>
            cases rest
            exact took
        | none => exact (ih rest).trans (by omega)
      · cases run

theorem mapSegment_empty {flags stop page : UInt64} {n : Nat} {r : Option Unit} (empty : freeFrames m = ∅)
    (run : (mapSegment flags stop (n+1) page).run m = some (r, m')) : m' = m ∧ (r = none → ¬page < stop) := by
  unfold mapSegment at run
  split at run
  · obtain ⟨r₁, m₁, first, rest⟩ := run_bind_eq_some.mp run
    obtain ⟨rfl, rfl⟩ := mapZeroPage_empty empty first
    obtain ⟨rfl, rfl⟩ := pure_run rest
    exact ⟨rfl, fun none => nomatch none⟩
  · next beyond =>
      obtain ⟨rfl, rfl⟩ := pure_run run
      exact ⟨rfl, fun _ => beyond⟩

theorem spends_mapUserPages (pages : List UInt64) : Moves Spends (mapUserPages pages) := by
  induction pages with
  | nil => exact .pure _
  | cons page rest ih =>
      unfold mapUserPages
      refine .bind (spends_mapZeroPage _ _) fun r => ?_
      cases r with
      | some _ => exact .pure _
      | none => exact ih

theorem takes_mapUserPages (page : UInt64) (rest : List UInt64) : Takes (mapUserPages (page :: rest)) := by
  unfold mapUserPages
  refine .bind (takes_mapZeroPage _ _) fun r => ?_
  cases r with
  | some _ => exact .pure _
  | none => exact spends_mapUserPages rest

/-- A segment whose bytes are copied although none of its pages is mapped: its end has wrapped around. -/
def Wraps (p : Phdr) : Prop := p.pType = 1 ∧ ¬p.pVaddr &&& pageMask < p.pVaddr + p.pMemsz ∧ copySize p ≠ 0

section Load
variable [BlockStore σ] {image : UInt64 → UInt8}

theorem spends_loadSegment (image : UInt64 → UInt8) (p : Phdr) : Moves KernelSpends (loadSegment image p : KernelM σ _) := by
  unfold loadSegment
  split
  · exact .pure _
  · refine .bind (spends_onMachine (spends_mapSegment _ _ _ _)) fun r => ?_
    cases r with
    | some _ => exact .pure _
    | none => exact .bind (.forRange (fun _ => spends_kernelStore _ _) 0 _) fun _ => .pure _

theorem loadSegment_failed {p : Phdr} (run : (loadSegment image p).run s = some (some (), t)) :
    (freeFrames t.machine).card ≤ (freeFrames s.machine).card - 1 := by
  unfold loadSegment at run
  split at run
  · cases run
  obtain ⟨r, u, mapped, rest⟩ := run_bind_eq_some.mp run
  obtain ⟨m, mapping, rfl⟩ := onMachine_run mapped
  cases r with
  | some _ =>
      cases rest
      exact mapSegment_failed mapping
  | none =>
      obtain ⟨_, v, -, rest⟩ := run_bind_eq_some.mp rest
      cases rest

theorem loadSegment_empty {p : Phdr} {r : Option Unit} (empty : freeFrames s.machine = ∅) (plain : ¬Wraps p)
    (run : (loadSegment image p).run s = some (r, t)) : t = s := by
  unfold loadSegment at run
  split at run
  · exact (pure_run run).2.symm
  next load =>
  obtain ⟨r₁, u, mapped, rest⟩ := run_bind_eq_some.mp run
  obtain ⟨m, mapping, rfl⟩ := onMachine_run mapped
  obtain ⟨rfl, none⟩ := mapSegment_empty empty mapping
  cases r₁ with
  | some _ => exact (pure_run rest).2.symm
  | none =>
      have nothing : copySize p = 0 := by
        by_contra some_
        exact plain ⟨not_not.mp load, none rfl, some_⟩
      rw [nothing] at rest
      exact (pure_run rest).2.symm

theorem elf64Load_takes {r : Option UInt64} (header : headerOk image = true) (run : (elf64Load image).run s = some (r, t)) :
    KernelSpends s t ∧ (freeFrames t.machine).card ≤ (freeFrames s.machine).card - 1 := by
  unfold elf64Load at run
  rw [if_neg (by simp [header])] at run
  obtain ⟨r₁, u, segments, rest⟩ := run_bind_eq_some.mp run
  have loaded := searchM_run (I := fun _ u => KernelSpends s u)
    (Q := fun r u => KernelSpends s u ∧ (r ≠ none → (freeFrames u.machine).card ≤ (freeFrames s.machine).card - 1))
    (.refl _) (fun j v r w _ _ before step => by
      have after := before.trans (spends_loadSegment image _ _ _ _ step)
      cases r with
      | some _ =>
          have took := loadSegment_failed step
          have fewer := before.card_le
          exact ⟨after, fun _ => by omega⟩
      | none => exact after)
    (fun u spent => ⟨spent, fun some_ => (some_ rfl).elim⟩) segments
  obtain ⟨spent, failed⟩ := loaded
  cases r₁ with
  | some _ =>
      cases rest
      exact ⟨spent, failed nofun⟩
  | none =>
      obtain ⟨r₂, v, pages, rest⟩ := run_bind_eq_some.mp rest
      obtain ⟨m, mapping, rfl⟩ := onMachine_run pages
      have took := takes_mapUserPages _ _ _ _ _ mapping
      have fewer := spent.card_le
      have all : KernelSpends s { u with machine := m } := spent.trans (spends_mapUserPages _ _ _ _ mapping)
      cases r₂ with
      | some _ =>
          cases rest
          exact ⟨all, took.trans (by omega)⟩
      | none =>
          cases rest
          exact ⟨all, took.trans (by omega)⟩

theorem elf64Load_empty {r : Option UInt64} (empty : freeFrames s.machine = ∅)
    (plain : ∀ i < ePhnum image, ¬Wraps (phdr image i)) (run : (elf64Load image).run s = some (r, t)) : t = s := by
  unfold elf64Load at run
  split at run
  · exact (pure_run run).2.symm
  obtain ⟨r₁, u, segments, rest⟩ := run_bind_eq_some.mp run
  have same : u = s := searchM_run (I := fun _ u => u = s) (Q := fun _ u => u = s) rfl
    (fun j v r w _ small before step => by
      subst before
      have after := loadSegment_empty empty (plain j (by omega)) step
      cases r with
      | some _ => exact after
      | none => exact after)
    (fun _ same => same) segments
  subst same
  cases r₁ with
  | some _ => exact (pure_run rest).2.symm
  | none =>
      obtain ⟨r₂, v, pages, rest⟩ := run_bind_eq_some.mp rest
      obtain ⟨m, mapping, rfl⟩ := onMachine_run pages
      unfold userPages mapUserPages at mapping
      obtain ⟨r₃, m', first, others⟩ := run_bind_eq_some.mp mapping
      obtain ⟨rfl, rfl⟩ := mapZeroPage_empty empty first
      obtain ⟨rfl, rfl⟩ := pure_run others
      exact (pure_run rest).2.symm

end Load

/-- The tables of the process, its entry of the process table with its heap and its mappings, all other processes and the
count of free pages are as before. -/
structure Unchanged (pagePml4 : UInt64) (s t : Kernel σ) : Prop where
  procs : SameProcs s t
  cr3 : t.machine.cr3 = s.machine.cr3
  tables : ∀ root ∈ [s.machine.cr3, s.parentCr3 pagePml4], ∀ q f,
    tableAt hwNext s.machine.mem (tableOf root) q = some f → t.machine.mem f = s.machine.mem f
  count : t.machine.freePageCount = s.machine.freePageCount

theorem Unchanged.same (procs : SameProcs s t) (machine : t.machine = s.machine) : Unchanged pagePml4 s t := by
  refine ⟨procs, ?_, fun _ _ _ _ _ => ?_, ?_⟩
  · rw [machine]
  · rw [machine]
  · rw [machine]

theorem Unchanged.not_spent (spends : KernelSpends s t) (some_ : freeFrames s.machine ≠ ∅)
    (took : (freeFrames t.machine).card ≤ (freeFrames s.machine).card - 1) : ¬Unchanged pagePml4 s t := by
  intro same
  have pos := Finset.card_pos.mpr (Finset.nonempty_iff_ne_empty.mpr some_)
  exact spends.count_ne (by omega) same.count

section Failure
variable [BlockStore σ] {kmalloc : UInt32 → Bool} {heap : UInt64 → UInt8} {fuel : Nat} {call : MemCall}

/-- No frame was taken before the call failed: it was refused by its arguments, or there was no frame at all. -/
def NoFrameTaken (kmalloc : UInt32 → Bool) (heap : UInt64 → UInt8) (fuel : Nat) (s : Kernel σ) : MemCall → Prop
  | .brk newBrk => newBrk = 0 ∨ newBrk < s.current.heapStart ∨ newBrk ≠ mapFailed ∧ freeFrames s.machine = ∅
  | .fork => freeFrames s.machine = ∅
  | .exec path _ => ∀ file u, (readProgram kmalloc fuel path).run s = some (some file, u) →
      headerOk (imageOf file heap) = true →
      freeFrames s.machine = ∅ ∧ ∀ i < ePhnum (imageOf file heap), ¬Wraps (phdr (imageOf file heap) i)

/-- The calls that may also leave everything as it was: the break is set to `-1` a second time, or a segment that wraps
around is copied over memory that is no table. -/
def Harmless (kmalloc : UInt32 → Bool) (heap : UInt64 → UInt8) (fuel : Nat) (s : Kernel σ) : MemCall → Prop
  | .brk newBrk => newBrk = mapFailed ∧ s.current.heapBreak = mapFailed
  | .fork => False
  | .exec path _ => ∃ file u i, (readProgram kmalloc fuel path).run s = some (some file, u) ∧ freeFrames s.machine = ∅ ∧
      i < ePhnum (imageOf file heap) ∧ Wraps (phdr (imageOf file heap) i)

theorem brk_clean {newBrk : UInt64} (run : (scBrk pagePml4 newBrk).run s = some (mapFailed, t)) :
    (NoFrameTaken kmalloc heap fuel s (.brk newBrk) → Unchanged pagePml4 s t) ∧
    (Unchanged pagePml4 s t → NoFrameTaken kmalloc heap fuel s (.brk newBrk) ∨ Harmless kmalloc heap fuel s (.brk newBrk)) := by
  cases scBrk_failed run with
  | refused small =>
      refine ⟨fun _ => .same (.refl _) rfl, fun _ => .inl ?_⟩
      exact small.imp_right .inl
  | @noFrame m oldPage newPage large above notMax below grow =>
      constructor
      · rintro (zero | small | ⟨-, empty⟩)
        · exact (large zero).elim
        · exact (above small).elim
        · exact .same ⟨rfl, rfl, fun _ => rfl, fun _ => .refl _⟩ (growPages_empty below empty grow)
      · intro same
        by_cases empty : freeFrames s.machine = ∅
        · exact .inl (.inr (.inr ⟨notMax, empty⟩))
        have spends : KernelSpends s { s with machine := m } := Moves.search (fun _ => spends_growHeap _) 0 _ _ _ _ grow
        exact (Unchanged.not_spent spends empty (takes_growPages below _ _ _ grow) same).elim
  | max max large above moved =>
      constructor
      · rintro (zero | small | ⟨notMax, -⟩)
        · exact (large zero).elim
        · exact (above small).elim
        · exact (notMax max).elim
      · intro same
        have before := congrArg Process.heapBreak (same.procs.fields s.currentIdx)
        unfold Kernel.current at moved
        rw [same.procs.current] at moved
        exact .inr ⟨max, before.symm.trans moved⟩

omit [BlockStore σ] in
theorem fork_clean (run : (procFork pagePml4).run s = some (-1, t)) :
    Unchanged pagePml4 s t ↔ freeFrames s.machine = ∅ := by
  constructor
  · intro same
    by_contra some_
    refine Unchanged.not_spent (procFork_run run).spends some_ ?_ same
    cases procFork_run run with
    | noTables clone => exact takes_vmmClonePml4 _ _ _ _ clone
    | tables clone made stack spends failed =>
        have first := takes_vmmClonePml4 _ _ _ _ clone
        exact spends.card_le.trans ((takes_pageAlloc _ _ _ stack).trans (by omega))
  · intro empty
    cases procFork_run run with
    | noTables clone => exact .same ⟨rfl, rfl, fun _ => rfl, fun _ => .refl _⟩ (vmmClonePml4_empty clone empty).2
    | tables clone made => exact (made (vmmClonePml4_empty clone empty).1).elim

theorem exec_clean {path args : List UInt8} (run : (scExec kmalloc heap fuel path args).run s = some (.failed, t)) :
    (NoFrameTaken kmalloc heap fuel s (.exec path args) → Unchanged pagePml4 s t) ∧
    (Unchanged pagePml4 s t → NoFrameTaken kmalloc heap fuel s (.exec path args) ∨ Harmless kmalloc heap fuel s (.exec path args)) := by
  unfold scExec at run
  obtain ⟨file, u, reading, rest⟩ := run_bind_eq_some.mp run
  obtain ⟨machine, procs⟩ := readProgram_same reading
  cases file with
  | none =>
      obtain ⟨-, rfl⟩ := pure_run rest
      refine ⟨fun _ => .same procs machine, fun _ => .inl fun file v other => ?_⟩
      rw [reading] at other
      cases other
  | some file =>
      obtain ⟨entry, v, loading, rest⟩ := run_bind_eq_some.mp rest
      cases entry with
      | some entry =>
          obtain ⟨_, w, -, rest⟩ := run_bind_eq_some.mp rest
          split at rest
          · cases rest
          · cases (pure_run rest).1
      | none =>
          obtain ⟨-, rfl⟩ := pure_run rest
          by_cases header : headerOk (imageOf file heap) = true
          · obtain ⟨spends, took⟩ := elf64Load_takes header loading
            unfold KernelSpends at spends
            rw [machine] at spends took
            constructor
            · intro clean
              obtain ⟨empty, plain⟩ := clean file u reading header
              obtain rfl := elf64Load_empty (by rw [machine]; exact empty) plain loading
              exact .same procs machine
            · intro same
              have empty : freeFrames s.machine = ∅ := by
                by_contra some_
                exact Unchanged.not_spent spends some_ took same
              by_cases plain : ∀ i < ePhnum (imageOf file heap), ¬Wraps (phdr (imageOf file heap) i)
              · refine .inl fun file' v' other header => ?_
                rw [reading] at other
                cases other
                exact ⟨empty, plain⟩
              · push Not at plain
                obtain ⟨i, small, wraps⟩ := plain
                exact .inr ⟨file, u, i, reading, empty, small, wraps⟩
          · have same : v = u := by
              unfold elf64Load at loading
              rw [if_pos (by simpa using header)] at loading
              exact (pure_run loading).2.symm
            subst same
            refine ⟨fun _ => .same procs machine, fun _ => .inl fun file' v' other header' => ?_⟩
            rw [reading] at other
            cases other
            exact (header header').elim

/-- A call that fails leaves everything as it was if it has taken no frame. If it has taken one, it is lost. -/
theorem failure_clean (failed : call.Fails pagePml4 kmalloc heap fuel s t) :
    (NoFrameTaken kmalloc heap fuel s call → Unchanged pagePml4 s t) ∧
    (Unchanged pagePml4 s t → NoFrameTaken kmalloc heap fuel s call ∨ Harmless kmalloc heap fuel s call) := by
  cases failed with
  | brk run => exact brk_clean run
  | fork run => exact ⟨(fork_clean run).mpr, fun same => .inl ((fork_clean run).mp same)⟩
  | exec run => exact exec_clean run

end Failure

/-- The first process with an empty heap; `frames` frames are free. -/
def smallMachine (frames : Nat) : Kernel Disk :=
  { oneProcess with
    procs := Function.update oneProcess.procs 0 { oneProcess.procs 0 with heapStart := 0x10000000, heapBreak := 0x10000000 }
    machine := ⟨fun _ _ => 0, fun f => decide (f < 3 ∨ frames + 3 ≤ f), 16, .ofNat frames, 0x1000, smallMachine_bounded⟩ }

theorem failure_clean_full : ∃ t, (MemCall.brk 0x10002000).Fails 0x1000 (fun _ => true) (fun _ => 0) 0 (smallMachine 0) t ∧
    Unchanged 0x1000 (smallMachine 0) t := by
  have run : ((scBrk 0x1000 0x10002000).run (smallMachine 0)).map (·.1) = some mapFailed := by decide +kernel
  obtain ⟨⟨r, t⟩, run, rfl⟩ := Option.map_eq_some_iff.mp run
  have failed : (MemCall.brk 0x10002000).Fails 0x1000 (fun _ => true) (fun _ => 0) 0 (smallMachine 0) t := .brk run
  refine ⟨t, failed, (failure_clean failed).1 (.inr (.inr ⟨by decide, ?_⟩))⟩
  decide +kernel

/-- The heap is to grow by two pages, and there is one frame: the call fails, and the frame is gone. -/
theorem failed_brk_loses_frame :
    ∃ t, (MemCall.brk 0x10002000).Fails 0x1000 (fun _ => true) (fun _ => 0) 0 (smallMachine 1) t ∧
      (smallMachine 1).machine.freePageCount = 1 ∧ t.machine.freePageCount = 0 ∧ ¬Unchanged 0x1000 (smallMachine 1) t := by
  have run : ((scBrk 0x1000 0x10002000).run (smallMachine 1)).map (fun r => (r.1, r.2.machine.freePageCount)) =
      some (mapFailed, 0) := by decide +kernel
  obtain ⟨⟨r, t⟩, run, same⟩ := Option.map_eq_some_iff.mp run
  obtain ⟨value, count⟩ := Prod.ext_iff.mp same
  dsimp only at value count
  subst value
  refine ⟨t, .brk run, rfl, count, fun unchanged => ?_⟩
  have before := unchanged.count
  rw [count] at before
  exact absurd before (by decide)

end SwiftBSD.Proof.User
