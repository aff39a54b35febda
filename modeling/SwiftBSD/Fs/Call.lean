import SwiftBSD.Fs.Mkfs

namespace SwiftBSD.Fs
open Lib

/-- A C string, without its terminator. -/
structure CString where
  bytes : List UInt8
  nul : 0 ∉ bytes

inductive Call
  | open_ (path : CString) (flags : UInt32)
  | read (fd : Int) (size : UInt32)
  | write (fd : Int) (buf : List UInt8)
  | close (fd : Int)
  | mkdir (path : CString) (mode : UInt16)
  | unlink (path : CString)
  | ls (path : CString)
  | sync

/-- The return value, the bytes a read has copied out and the arguments of the callback of `swiftfs2_ls`. -/
structure Result where
  value : Int
  bytes : List UInt8
  entries : List LsEntry
deriving DecidableEq

def Result.ofValue (value : Int) : Result := ⟨value, [], []⟩

def Call.exec {σ : Type} [BlockStore σ] : Call → FsM σ Result
  | .open_ path flags => return .ofValue (← swiftfs2Open path.bytes flags)
  | .read fd size => do
      let r ← swiftfs2Read fd size.toNat
      return ⟨r.1, r.2, []⟩
  | .write fd buf => return .ofValue (← swiftfs2Write fd buf)
  | .close fd => return .ofValue (← swiftfs2Close fd)
  | .mkdir path mode => return .ofValue (← swiftfs2Mkdir path.bytes mode)
  | .unlink path => return .ofValue (← swiftfs2Unlink path.bytes)
  | .ls path => do
      let r ← swiftfs2Ls path.bytes
      return ⟨r.1, [], r.2⟩
  | .sync => return .ofValue (← swiftfs2Sync)

/-- The states a run can reach when every call is `ok` in the state it is made in. -/
inductive Reach {σ : Type} [BlockStore σ] (ok : FsState σ → Call → Prop) (s : FsState σ) : FsState σ → Prop
  | start : Reach ok s s
  | call {t u : FsState σ} {c : Call} {r : Result} (before : Reach ok s t) (admitted : ok t c)
      (run : c.exec.run t = some (r, u)) : Reach ok s u

/-- As `Reach`, with reboots: a sync, and a mount by a fresh kernel with a heap of its own. -/
inductive ReachBoot {σ : Type} [BlockStore σ] (ok : FsState σ → Call → Prop) (s : FsState σ) : FsState σ → Prop
  | start : ReachBoot ok s s
  | call {t u : FsState σ} {c : Call} {r : Result} (before : ReachBoot ok s t) (admitted : ok t c)
      (run : c.exec.run t = some (r, u)) : ReachBoot ok s u
  | reboot {t t' u : FsState σ} {heap : Nat → Bool} (before : ReachBoot ok s t) (sync : swiftfs2Sync.run t = some (0, t'))
      (mount : swiftfs2Mount.run (FsState.boot t'.dev heap) = some (0, u)) : ReachBoot ok s u

end SwiftBSD.Fs
