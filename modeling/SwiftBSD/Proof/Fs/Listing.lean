import SwiftBSD.Proof.Fs.Creating

namespace SwiftBSD.Proof.Fs
open Lib SwiftBSD.Fs

variable {R : Nat → Prop} {V : Vol} {D : Nat → List (List Rec)} {bs : List (List Rec)} {i : Nat} {name : List UInt8} {s s₀ u : FsState Disk}
  {sizeMb : Nat} {img : Disk} {heap : Nat → Bool}

/-- The checked cache holds block `b` in slot `j`, and the block of inodes `ib` does not take that slot. -/
structure Holds (j : Fin 64) (b ib : Nat) (p : FsState Pinned) (V : Vol) : Prop where
  seen : ∃ d, Rep d V ∧ Agree False diskOverPinned.Dev d p
  block : HoldsBlock p.dev.cache j b
  lasts : Outlasts p.dev.cache j ib

section Holds
variable {j : Fin 64} {b ib pos n : Nat} {rs : List Rec}

end Holds

end SwiftBSD.Proof.Fs
