import SwiftBSD.Vfs.Call

namespace SwiftBSD.Vfs
open Lib Fs

structure Stat where
  mode : UInt16
  size : UInt64

variable {σ : Type} [BlockStore σ]

/-- `none` is the result `-1`. -/
def swiftfs2Fstat (fd : Int) : FsM σ (Option Stat) := do
  let s ← get
  if !Fs.fdOpen s.fds fd then return none
  let x ← inodeRead (s.fds fd.toNat).inode
  return some ⟨x.mode, x.size⟩

/-- The serial line has no `stat`; that of a pipe is a null pointer. -/
def vfsFstat (fd : Int) : VfsM σ (Option Stat) := do
  let s ← get
  if !fdOpen s.fds fd then return none
  match (s.fds fd.toNat).ops with
  | some .serial => return none
  | some .swiftfs => liftFs (swiftfs2Fstat (s.fds fd.toNat).priv)
  | _ => failure

inductive Request
  | read
  | write
  | fstat
  | close
deriving DecidableEq

/-- The table has a pointer for the request. -/
def Ops.sets : Ops → Request → Bool
  | .serial, _ | .swiftfs, _ => true
  | .pipeRead, r => r = .read ∨ r = .close
  | .pipeWrite, r => r = .write ∨ r = .close

inductive Target
  | returns (ret : Int)
  | calls (ops : Ops)
  | null
deriving DecidableEq

/-- `vfs_close` is the only one that looks at the pointer. -/
def target (fds : Nat → File) (r : Request) (fd : Int) : Target :=
  if !fdOpen fds fd then .returns (-1)
  else if r = .close ∧ 1 < (fds fd.toNat).refcount then .returns 0
  else match (fds fd.toNat).ops with
    | none => .null
    | some ops => if ops.sets r then .calls ops else if r = .close then .returns 0 else .null

/-- The table of a process is there from its `vfs_init` or its fork on. -/
structure Tables (σ : Type) where
  vfs : VfsState σ
  table : Nat → Option (Nat → File)

/-- The table of process `p` after a call. -/
def Tables.after (s : Tables σ) (p : Nat) (vfs : VfsState σ) : Tables σ := ⟨vfs, Function.update s.table p (some vfs.fds)⟩

/-- `vfs_init` works on memory that holds anything. -/
inductive TablesStep (s : Tables σ) : Tables σ → Prop
  | init (p : Nat) (fds : Nat → File) : TablesStep s ⟨s.vfs, Function.update s.table p (some (vfsInit fds))⟩
  | call {p : Nat} {fds : Nat → File} {c : VfsCall} {r : Int} {t : VfsState σ} (here : s.table p = some fds)
      (run : c.exec.run { s.vfs with fds } = some (r, t)) : TablesStep s (s.after p t)
  | pipe {p : Nat} {fds : Nat → File} {kmalloc : Option Nat} {r : Int × Option (Nat × Nat)} {t : VfsState σ} (here : s.table p = some fds)
      (run : (vfsPipe kmalloc).run { s.vfs with fds } = some (r, t)) : TablesStep s (s.after p t)
  | fork {p : Nat} {fds : Nat → File} (child : Nat) (here : s.table p = some fds) :
      TablesStep s ⟨s.vfs, Function.update s.table child (some fds)⟩

/-- SwiftFS is registered before the first process runs. -/
inductive TablesRun : Tables σ → Prop
  | start {vfs : VfsState σ} (registered : vfs.fsList = [.swiftfs]) : TablesRun ⟨vfs, fun _ => none⟩
  | step {s t : Tables σ} (before : TablesRun s) (step : TablesStep s t) : TablesRun t

end SwiftBSD.Vfs
