import SwiftBSD.Proof.User.Filled

namespace SwiftBSD.Proof.User
open Lib SwiftBSD.Fs SwiftBSD.Mm SwiftBSD.Vfs SwiftBSD.Sched SwiftBSD.User SwiftBSD.Proof.Mm SwiftBSD.Proof.Sched

variable {σ : Type} {m m' : Machine} {mem : Mem} {cr2 errorCode v v' : UInt64} {g : Nat} {e : UInt64} {tr : Translation}

/-- The frames a user may read, and the tables that lead there. -/
def Seen (m : Machine) (f : Nat) : Prop :=
  IsTable m.mem m.cr3 f ∨ ∃ v tr, translate m.mem m.cr3 v = some tr ∧ tr.user = true ∧ tr.phys / 4096 = f

/-- The contents of memory differ only where the user cannot look. -/
def Hidden (m : Machine) (mem : Mem) : Prop := ∀ f, Seen m f → ∀ i, i < 512 → mem f i = m.mem f i

theorem Hidden.alike (hidden : Hidden m mem) : Alike (Seen m) m { m with mem } := ⟨rfl, rfl, rfl, hidden⟩

section Given
variable (tables : FullTables m m.cr3) (given : Given m m' cr2 g e)
include given

include tables

end Given

/-- A write fault at a page of the kernel above 16 MB. -/
def AtKernelPage (m : Machine) (cr2 errorCode : UInt64) : Prop :=
  errorCode &&& pfWrite ≠ 0 ∧ 0x1000000 ≤ cr2 ∧ ∃ tr, translate m.mem m.cr3 cr2 = some tr ∧ tr.user = false

/-- A write fault at a page above 16 MB that is there: the handler copies the page. -/
def Copied (m : Machine) (cr2 errorCode : UInt64) : Prop :=
  errorCode &&& pfWrite ≠ 0 ∧ 0x1000000 ≤ cr2 ∧ translate m.mem m.cr3 cr2 ≠ none

theorem AtKernelPage.copied {m : Machine} (kernel : AtKernelPage m cr2 errorCode) : Copied m cr2 errorCode := by
  obtain ⟨write, above, tr, here, -⟩ := kernel
  exact ⟨write, above, by rw [here]; exact Option.some_ne_none tr⟩

section Handler
variable [BlockStore σ] {s t : Kernel σ} {A : Nat → Prop}

variable (tables : FullTables s.machine s.machine.cr3) (reserved : s.machine.bitmap 0 = true) (enough : 4 ≤ (freeFrames s.machine).card)
include tables reserved enough

end Handler

end SwiftBSD.Proof.User
