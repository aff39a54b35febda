import SwiftBSD.Fs.Call
import SwiftBSD.Vfs.File

namespace SwiftBSD.Vfs
open Lib Fs

inductive VfsCall
  | open_ (path : CString) (flags : UInt32)
  | dup (oldfd : Int)
  | dup2 (oldfd newfd : Int)
  | close (fd : Int)

variable {σ : Type} [BlockStore σ]

def VfsCall.exec : VfsCall → VfsM σ Int
  | .open_ path flags => vfsOpen path.bytes flags
  | .dup oldfd => vfsDup oldfd
  | .dup2 oldfd newfd => vfsDup2 oldfd newfd
  | .close fd => vfsClose fd

/-- The states a run can reach when every call is `ok` in the state it is made in. -/
inductive VfsReach (ok : VfsState σ → VfsCall → Prop) (s : VfsState σ) : VfsState σ → Prop
  | start : VfsReach ok s s
  | call {t u : VfsState σ} {c : VfsCall} {r : Int} (before : VfsReach ok s t) (admitted : ok t c)
      (run : c.exec.run t = some (r, u)) : VfsReach ok s u

inductive SlotCall
  | open_ (path : CString) (flags : UInt32)
  | read (fd : Int) (sz : UInt32)
  | write (fd : Int) (buf : List UInt8)
  | lseek (fd : Int) (offset : UInt64) (whence : Int)
  | close (fd : Int)

def SlotCall.exec : SlotCall → VfsM σ Progress
  | .open_ path flags => do return .done (← vfsOpen path.bytes flags) []
  | .read fd sz => vfsRead fd sz
  | .write fd buf => vfsWrite fd buf
  | .lseek fd offset whence => do return .done (← vfsLseek fd offset whence) []
  | .close fd => do return .done (← vfsClose fd) []

/-- The inode that `swiftfs2_open` finds or makes for a path. -/
def resolved (path : List UInt8) (flags : UInt32) (s : FsState σ) : Nat :=
  match (openResolve path flags).run s with
  | some (some ino, _) => ino
  | _ => 0

/-- The files of the slots after a call that came back with `p`. -/
def SlotCall.files (s : VfsState σ) (file : Nat → Nat) : SlotCall → Progress → Nat → Nat
  | .open_ path flags, .done r _ => if 0 ≤ r then Function.update file r.toNat (resolved path.bytes flags s.fs) else file
  | _, _ => file

/-- The states of one process that does nothing but this, with the inode that the `vfs_open` of each slot resolved. -/
inductive SlotRun (s : VfsState σ) : VfsState σ → (Nat → Nat) → Prop
  | start : SlotRun s s fun _ => 0
  | step {t u : VfsState σ} {file : Nat → Nat} {c : SlotCall} {p : Progress} (before : SlotRun s t file) (run : c.exec.run t = some (p, u)) :
      SlotRun s u (c.files t file p)

end SwiftBSD.Vfs
