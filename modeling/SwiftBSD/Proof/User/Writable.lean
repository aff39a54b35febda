import SwiftBSD.User.Fault
import SwiftBSD.Proof.Mm.Given
import SwiftBSD.Proof.Sched.Process

namespace SwiftBSD.Proof.User
open Lib SwiftBSD.Mm SwiftBSD.Sched SwiftBSD.User SwiftBSD.Proof.Mm SwiftBSD.Proof.Sched

variable {σ : Type} {m : Machine} {cr2 errorCode virt : UInt64} {g : Nat} {e : UInt64}

def zeroFlags (user : Bool) : UInt64 := pgPresent ||| pgWrite ||| pgNx ||| (if user then pgUser else 0)

section Zero
variable {s t : Machine} {user : Bool} (tables : FullTables s s.cr3) (reserved : s.bitmap 0 = true) (enough : 4 ≤ (freeFrames s).card)
include tables reserved enough

theorem zeroFault_succeeds : ∃ t g, (zeroFault virt user).run s = some ((), t) ∧ Given s t virt g (pteOf (addrOf g) (zeroFlags user)) ∧
    ∀ i, i < 512 → t.mem g i = 0 := by
  obtain ⟨a, s₁, alloc, nonzero⟩ := vmmAllocPage_succeeds reserved (by omega : 0 < (freeFrames s).card)
  obtain ⟨g, fresh, rfl, zero⟩ := vmmAllocPage_fresh alloc nonzero
  obtain ⟨t, map⟩ := vmmMapInCr3_total s.cr3 (virt &&& pageMask) (addrOf g) (zeroFlags user) s₁
  obtain ⟨given, same⟩ := fresh.given tables reserved enough map
  refine ⟨t, g, ?_, given, fun i small => by rw [same, zero i small]⟩
  unfold zeroFault
  dsimp only
  rw [run_bind_some alloc, if_neg nonzero]
  unfold vmmMap
  rw [run_bind_some (x := get) rfl, fresh.register]
  exact map

end Zero

section Handler
variable [Fs.BlockStore σ] {s t : Kernel σ}

theorem handler_cow (present : errorCode &&& pfPresent ≠ 0) (write : errorCode &&& pfWrite ≠ 0) (above : 0x1000000 ≤ cr2) :
    (exceptionHandler cr2 errorCode : KernelM σ Unit) = onMachine (cowFault cr2) := by
  unfold exceptionHandler
  exact if_pos ⟨present, write, above⟩

theorem handler_zero (absent : errorCode &&& pfPresent = 0) (write : errorCode &&& pfWrite ≠ 0) (above : 0x1000000 ≤ cr2) :
    (exceptionHandler cr2 errorCode : KernelM σ Unit) = onMachine (zeroFault cr2 (errorCode &&& pfUser ≠ 0)) := by
  unfold exceptionHandler
  dsimp only
  rw [if_neg (fun both => both.1 absent), if_pos ⟨not_not.mpr absent, write, above⟩]

end Handler

def Writable (m : Machine) (virt : UInt64) : Prop := ∃ tr, translate m.mem m.cr3 virt = some tr ∧ tr.write = true

/-- The fault of a user's write above 16 MB: the page is not present, or it is not the user's to write. -/
structure WriteFault (m : Machine) (cr2 errorCode : UInt64) : Prop where
  above : 0x1000000 ≤ cr2
  user : errorCode &&& pfUser ≠ 0
  write : errorCode &&& pfWrite ≠ 0
  present : errorCode &&& pfPresent ≠ 0 ↔ translate m.mem m.cr3 cr2 ≠ none
  denied : ∀ tr, translate m.mem m.cr3 cr2 = some tr → ¬(tr.write = true ∧ tr.user = true)

/-- Where a process may write: its heap, its stack, the page of its arguments, a mapping with `PROT_WRITE`, and a page that
was writable until a fork. The entry of such a page does not tell, so these pages are an argument. -/
inductive Allowed (s : Kernel σ) (cleared : UInt64 → Prop) (cr2 : UInt64) : Prop
  | heap (above : s.current.heapStart ≤ cr2) (below : cr2 < s.current.heapBreak)
  | stack (above : 0x7F000000 ≤ cr2) (below : cr2 < 0x7F003000)
  | args (page : cr2 &&& pageMask = 0x7F004000)
  | mapping {i : Nat} (small : i < vmaMax) (inside : covers (s.current.vmas.entry i) cr2 = true)
      (write : (s.current.vmas.entry i).prot &&& 2 ≠ 0)
  | forked (page : cleared (cr2 &&& pageMask))

section Permits
variable [Fs.BlockStore σ] {s t : Kernel σ} {cleared : UInt64 → Prop}

/-- The handler makes a page writable only where the process may write. -/
def Permits (s : Kernel σ) (cleared : UInt64 → Prop) (cr2 errorCode : UInt64) : Prop :=
  ∀ t, (exceptionHandler cr2 errorCode).run s = some ((), t) → Writable t.machine cr2 → Allowed s cleared cr2

theorem writable_given {s t : Machine} {flags : UInt64} (given : Given s t virt g (pteOf (addrOf g) flags))
    (write : flags &&& pgWrite ≠ 0) : Writable t virt := by
  refine ⟨_, by rw [given.register]; exact given.here virt ⟨rfl, rfl⟩, ?_⟩
  change (pteOf (addrOf g) flags &&& pgWrite != 0) = true
  rw [bne_iff_ne, Ne, pteOf_write]
  exact write

theorem handler_writable (tables : FullTables s.machine s.machine.cr3) (reserved : s.machine.bitmap 0 = true)
    (fault : WriteFault s.machine cr2 errorCode) (enough : 4 ≤ (freeFrames s.machine).card) :
    ∃ t, (exceptionHandler cr2 errorCode).run s = some ((), t) ∧ Writable t.machine cr2 := by
  by_cases present : errorCode &&& pfPresent = 0
  · obtain ⟨m, g, run, given, -⟩ := @zeroFault_succeeds cr2 _ (decide (errorCode &&& pfUser ≠ 0)) tables reserved enough
    refine ⟨{ s with machine := m }, ?_, writable_given given ?_⟩
    · rw [handler_zero present fault.write fault.above]
      exact run_onMachine run
    · cases decide (errorCode &&& pfUser ≠ 0) <;> decide
  · obtain ⟨tr, here⟩ := Option.ne_none_iff_exists'.mp (fault.present.mp present)
    obtain ⟨m, g, run, given, -⟩ := cowFault_succeeds tables reserved enough here
    refine ⟨{ s with machine := m }, ?_, writable_given given (by decide)⟩
    rw [handler_cow present fault.write fault.above]
    exact run_onMachine run

theorem permits_iff (tables : FullTables s.machine s.machine.cr3) (reserved : s.machine.bitmap 0 = true)
    (fault : WriteFault s.machine cr2 errorCode) :
    (Allowed s cleared cr2 → Permits s cleared cr2 errorCode) ∧
    (4 ≤ (freeFrames s.machine).card → (Permits s cleared cr2 errorCode ↔ Allowed s cleared cr2)) := by
  refine ⟨fun allowed _ _ _ => allowed, fun enough => ⟨fun permits => ?_, fun allowed _ _ _ => allowed⟩⟩
  obtain ⟨t, run, writable⟩ := handler_writable tables reserved fault enough
  exact permits t run writable

end Permits

/-- The first process, on the tables of `setup_paging`. -/
def bootProcess : Kernel Fs.Disk := { oneProcess with machine := twoSpaces (addrOf 272) }

theorem bootProcess_tables : FullTables bootProcess.machine bootProcess.machine.cr3 :=
  (twoSpaces_boot _ (.inl rfl)).fullTables

theorem bootProcess_enough : 4 ≤ (freeFrames bootProcess.machine).card := twoSpaces_enough _

theorem guardPage_fault : WriteFault bootProcess.machine 0x7F003000 6 := by
  have absent : translate bootProcess.machine.mem bootProcess.machine.cr3 0x7F003000 = none := by decide +kernel
  refine ⟨by decide, by decide, by decide, ⟨fun present => absurd rfl present, fun present => (present absent).elim⟩, fun tr here => ?_⟩
  rw [absent] at here
  cases here

theorem permits_iff_stack : Permits bootProcess (fun _ => False) 0x7F002000 6 := by
  have absent : translate bootProcess.machine.mem bootProcess.machine.cr3 0x7F002000 = none := by decide +kernel
  have fault : WriteFault bootProcess.machine 0x7F002000 6 := by
    refine ⟨by decide, by decide, by decide, ⟨fun present => absurd rfl present, fun present => (present absent).elim⟩, fun tr here => ?_⟩
    rw [absent] at here
    cases here
  exact ((permits_iff bootProcess_tables (by decide) fault).2 bootProcess_enough).mpr (.stack (by decide) (by decide))

/-- A write to the guard page of the stack makes it writable. -/
theorem guardPage_written : WriteFault bootProcess.machine 0x7F003000 6 ∧ ¬Permits bootProcess (fun _ => False) 0x7F003000 6 := by
  refine ⟨guardPage_fault, fun permits => ?_⟩
  obtain ⟨t, run, writable⟩ := handler_writable bootProcess_tables (by decide) guardPage_fault bootProcess_enough
  cases permits t run writable with
  | heap above below => exact absurd below (by decide)
  | stack above below => exact absurd below (by decide)
  | args page => exact absurd page (by decide)
  | mapping small inside => cases inside
  | forked page => exact page

end SwiftBSD.Proof.User
