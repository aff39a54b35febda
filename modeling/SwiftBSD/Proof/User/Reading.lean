import SwiftBSD.Proof.User.Invisible
import SwiftBSD.Proof.User.Writable
import SwiftBSD.Proof.Vfs.Whole

namespace SwiftBSD.Proof.User
open Lib SwiftBSD.Fs SwiftBSD.Vfs SwiftBSD.Sched SwiftBSD.User SwiftBSD.Proof.Fs SwiftBSD.Proof.Vfs

variable {R : Nat → Prop} {V : Vol} {D : Nat → List (List Rec)} {s : Kernel Disk} {flags : UInt32} {i j fd p fuel : Nat}
  {bs : List UInt8} {kmalloc : UInt32 → Bool}

end SwiftBSD.Proof.User
