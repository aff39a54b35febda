import SwiftBSD.Proof.User.Placement
import SwiftBSD.Proof.User.Reading

namespace SwiftBSD.Proof.User
open Lib SwiftBSD.Mm SwiftBSD.Fs SwiftBSD.Vfs SwiftBSD.Sched SwiftBSD.User SwiftBSD.Proof.Mm SwiftBSD.Proof.Fs SwiftBSD.Proof.Vfs

variable {σ : Type} {image : UInt64 → UInt8}

end SwiftBSD.Proof.User
