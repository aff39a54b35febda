import SwiftBSD.Proof.Mm.Alike
import SwiftBSD.Proof.User.Program
import SwiftBSD.Proof.User.Writable

namespace SwiftBSD.Proof.User
open Lib SwiftBSD.Fs SwiftBSD.Mm SwiftBSD.Vfs SwiftBSD.Sched SwiftBSD.User SwiftBSD.Proof.Mm SwiftBSD.Proof.Sched

variable {σ α : Type} {g : Nat} {virt : UInt64}

section Amount
variable [BlockStore σ]

theorem length_read {n : Nat} (b : Bytes n) (off len : Nat) : (b.read off len).length = len := by
  unfold Bytes.read
  rw [List.length_map, List.length_range]

end Amount

section Store
variable {A : Nat → Prop} {s t t' u : Machine} {e : UInt64}

theorem setByteAt_entry (phys : Nat) (b : UInt8) (s : Machine) : (setByteAt phys b).run s =
    some ((), setEntry s (phys / 4096) (phys % 4096 / 8) (putByte (s.mem (phys / 4096) (phys % 4096 / 8)) (phys % 8) b)) := rfl

end Store

section Give
variable {A : Nat → Prop} {s s' s₁ t : Machine} {a flags : UInt64} (tables : FullTables s s.cr3) (reserved : s.bitmap 0 = true)
  (enough : 4 ≤ (freeFrames s).card) (alloc : vmmAllocPage.run s = some (a, s₁)) (success : a ≠ 0)
  (map : (vmmMap (virt &&& pageMask) a flags).run s₁ = some ((), t))
include tables reserved enough alloc success map

end Give

theorem Given.known {A : Nat → Prop} {s t : Machine} {e : UInt64} (given : Given s t virt g e) (known : ∀ f, IsTable s.mem s.cr3 f → A f) :
    (∀ f, IsTable t.mem s.cr3 f → Since A s t f) ∧ Since A s t g := by
  refine ⟨fun f table => ?_, .inr ⟨given.free, given.taken⟩⟩
  rcases given.adds f table with old | free
  · exact .inl (known f old)
  · exact .inr ⟨free, given.tables.isTable_taken table⟩

section Kernel
variable [BlockStore σ] {s t : Kernel σ} {A : Nat → Prop} {m m' : Machine} {e : UInt64}

section Fill
variable (given : Given m s.machine virt g e) (alike : Alike A s.machine m') (known : ∀ f, IsTable s.machine.mem m.cr3 f → A f)
  (frame : A g)
include given alike known frame

end Fill

end Kernel

end SwiftBSD.Proof.User
