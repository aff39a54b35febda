import SwiftBSD.Fs.Swiftfs2
import SwiftBSD.Vfs.Pipe

namespace SwiftBSD.Vfs
open Lib Fs

/-- The `vfs_ops` tables; the null pointer is `none`. -/
inductive Ops
  | serial
  | swiftfs
  | pipeRead
  | pipeWrite
deriving DecidableEq

/-- `priv` is a descriptor of the file system, or the address of a pipe. -/
structure File where
  ops : Option Ops
  priv : Nat
  pos : UInt64
  flags : UInt32
  refcount : Int
deriving DecidableEq

abbrev Handle := Ops × Nat

structure VfsState (σ : Type) where
  fs : FsState σ
  fsList : List Ops
  pipes : Nat → Option Pipe
  serialIn : Nat → UInt8
  serialOut : List UInt8
  fds : Nat → File
  opened : List Handle
  closed : List Handle

abbrev VfsM (σ : Type) := Prog (VfsState σ)

section Operations
variable {σ : Type} [BlockStore σ]

def liftFs {α : Type} (x : FsM σ α) : VfsM σ α := do
  let s ← get
  match x.run s.fs with
  | some (a, fs) =>
      set { s with fs }
      return a
  | none => failure

def setFile (fd : Nat) (f : File) : VfsM σ Unit := modify fun s => { s with fds := Function.update s.fds fd f }

def setPipe (ptr : Nat) (p : Option Pipe) : VfsM σ Unit :=
  modify fun s => { s with pipes := Function.update s.pipes ptr p }

/-- The pipe at an address; it goes wrong if the pipe was freed. -/
def getPipe (ptr : Nat) : VfsM σ Pipe := do
  match (← get).pipes ptr with
  | some p => return p
  | none => failure

/-- The private pointer, if the call returns 0. A pipe has no `open`. -/
def opsOpen (ops : Ops) (path : List UInt8) (flags : UInt32) : VfsM σ (Option Nat) := do
  match ops with
  | .serial => return some 0
  | .swiftfs =>
      let fd ← liftFs (swiftfs2Open path flags)
      if fd < 0 then return none
      modify fun s => { s with opened := s.opened ++ [(.swiftfs, fd.toNat)] }
      return some fd.toNat
  | _ => failure

/-- `pipe_close_op` and `pipe_write_close_op`, after they have counted down. -/
def pipeDropped (ptr : Nat) (p : Pipe) : VfsM σ Int := do
  if p.readers = 0 ∧ p.writers = 0 then setPipe ptr none else setPipe ptr (some p)
  return 0

def pipeCloseOp (ptr : Nat) : VfsM σ Int := do
  let p ← getPipe ptr
  pipeDropped ptr { p with readers := p.readers - 1 }

def pipeWriteCloseOp (ptr : Nat) : VfsM σ Int := do
  let p ← getPipe ptr
  pipeDropped ptr { p with writers := p.writers - 1 }

def opsClose (ops : Ops) (priv : Nat) : VfsM σ Int := do
  modify fun s => { s with closed := s.closed ++ [(ops, priv)] }
  match ops with
  | .serial => return 0
  | .swiftfs => liftFs (swiftfs2Close priv)
  | .pipeRead => pipeCloseOp priv
  | .pipeWrite => pipeWriteCloseOp priv

def fdOpen (fds : Nat → File) (fd : Int) : Bool := 0 ≤ fd && fd < 64 && (fds fd.toNat).refcount != 0

def vfsInit (fds : Nat → File) (i : Nat) : File :=
  if i < 2 then { fds i with ops := some .serial, refcount := 1 }
  else if i < 64 then { fds i with refcount := 0 }
  else fds i

def fdAlloc : VfsM σ (Option Nat) := do
  let s ← get
  return firstFrom (fun i => (s.fds i).refcount == 0) 2 62

def vfsOpenIn (path : List UInt8) (flags : UInt32) : List Ops → VfsM σ Int
  | [] => return -1
  | ops :: rest => do
      match ← opsOpen ops path flags with
      | none => vfsOpenIn path flags rest
      | some priv =>
          match ← fdAlloc with
          | none =>
              let _ ← opsClose ops priv
              return -1
          | some fd =>
              setFile fd ⟨some ops, priv, 0, flags, 1⟩
              return fd

def vfsOpen (path : List UInt8) (flags : UInt32) : VfsM σ Int := do
  vfsOpenIn path flags (← get).fsList

def vfsClose (fd : Int) : VfsM σ Int := do
  let s ← get
  if !fdOpen s.fds fd then return -1
  let f := s.fds fd.toNat
  setFile fd.toNat { f with refcount := f.refcount - 1 }
  if 0 < f.refcount - 1 then return 0
  match f.ops with
  | none => failure
  | some ops =>
      let ret ← opsClose ops f.priv
      setFile fd.toNat ⟨none, 0, 0, 0, 0⟩
      return ret

def vfsLseek (fd : Int) (offset : UInt64) (whence : Int) : VfsM σ Int := do
  let s ← get
  if !fdOpen s.fds fd then return -1
  let f := s.fds fd.toNat
  let pos := if whence = 0 then some offset else if whence = 1 then some (f.pos + offset) else none
  match pos with
  | none => return -1
  | some pos =>
      setFile fd.toNat { f with pos }
      return toInt pos.toUInt32

/-- What `kmalloc` returns for the pipe is an argument. -/
def vfsPipe (kmalloc : Option Nat) : VfsM σ (Int × Option (Nat × Nat)) := do
  match kmalloc with
  | none => return (-1, none)
  | some p =>
      setPipe p (some ⟨.zero, 0, 0, 1, 1⟩)
      match ← fdAlloc with
      | none =>
          setPipe p none
          return (-1, none)
      | some rfd =>
          match ← fdAlloc with
          | none =>
              let s ← get
              setFile rfd { s.fds rfd with refcount := 0 }
              setPipe p none
              return (-1, none)
          | some wfd =>
              setFile rfd ⟨some .pipeRead, p, 0, 0, 1⟩
              setFile wfd ⟨some .pipeWrite, p, 0, 0, 1⟩
              return (0, some (rfd, wfd))

/-- `newfd` becomes a copy of `oldfd`, with a count of its own. -/
def dupInto (oldfd newfd : Nat) (fds : Nat → File) : Nat → File :=
  let fds := Function.update fds newfd { fds oldfd with refcount := 1 }
  Function.update fds oldfd { fds oldfd with refcount := (fds oldfd).refcount + 1 }

def vfsDup (oldfd : Int) : VfsM σ Int := do
  let s ← get
  if !fdOpen s.fds oldfd then return -1
  match ← fdAlloc with
  | none => return -1
  | some newfd =>
      modify fun s => { s with fds := dupInto oldfd.toNat newfd s.fds }
      return newfd

def vfsDup2 (oldfd newfd : Int) : VfsM σ Int := do
  let s ← get
  if !fdOpen s.fds oldfd then return -1
  if newfd < 0 ∨ 64 ≤ newfd then return -1
  if newfd = oldfd then return newfd
  if 0 < (s.fds newfd.toNat).refcount then
    let _ ← vfsClose newfd
  modify fun s => { s with fds := dupInto oldfd.toNat newfd.toNat s.fds }
  return newfd

def serRead (sz : Nat) : VfsM σ (Int × List UInt8) := do
  let s ← get
  set { s with serialIn := fun k => s.serialIn (k + sz) }
  return (toInt (.ofNat sz), (List.range sz).map s.serialIn)

def serWrite (buf : List UInt8) : VfsM σ Int := do
  modify fun s => { s with serialOut := s.serialOut ++ buf }
  return toInt (.ofNat buf.length)

/-- `sw_read`: the descriptor of the file system takes the position of the slot, and the slot takes it back. -/
def swRead (priv : Nat) (sz : Nat) (pos : UInt64) : VfsM σ (Int × List UInt8 × UInt64) := do
  liftFs (modify (setPos priv pos.toUInt32.toNat))
  let (ret, bytes) ← liftFs (swiftfs2Read priv sz)
  let s ← get
  return (ret, bytes, if 0 < ret then .ofNat (s.fs.fds priv).pos else pos)

def swWrite (priv : Nat) (buf : List UInt8) (pos : UInt64) : VfsM σ (Int × UInt64) := do
  liftFs (modify (setPos priv pos.toUInt32.toNat))
  let ret ← liftFs (swiftfs2Write priv buf)
  let s ← get
  return (ret, if 0 < ret then .ofNat (s.fs.fds priv).pos else pos)

/-- A call that is inside the loop of `pipe_read_op` or `pipe_write_op`. -/
inductive Pending
  | read (ptr : Nat) (c : PipeRead)
  | write (ptr : Nat) (c : PipeWrite)

/-- A call has returned, with the bytes it has read, or it goes on. -/
inductive Progress
  | done (ret : Int) (bytes : List UInt8)
  | waits (call : Pending)
  | goes (call : Pending)

/-- A call up to the loop of a pipe. Reading from a write end, or writing to a read end, calls a null pointer. -/
def vfsReadStart (fd : Int) (sz : UInt32) : VfsM σ Progress := do
  let s ← get
  if !fdOpen s.fds fd then return .done (-1) []
  let f := s.fds fd.toNat
  match f.ops with
  | some .serial =>
      let (ret, bytes) ← serRead sz.toNat
      return .done ret bytes
  | some .swiftfs =>
      let (ret, bytes, pos) ← swRead f.priv sz.toNat f.pos
      setFile fd.toNat { f with pos }
      return .done ret bytes
  | some .pipeRead => return .goes (.read f.priv ⟨sz, 0, []⟩)
  | _ => failure

def vfsWriteStart (fd : Int) (buf : List UInt8) : VfsM σ Progress := do
  let s ← get
  if !fdOpen s.fds fd then return .done (-1) []
  let f := s.fds fd.toNat
  match f.ops with
  | some .serial =>
      let ret ← serWrite buf
      return .done ret []
  | some .swiftfs =>
      let (ret, pos) ← swWrite f.priv buf f.pos
      setFile fd.toNat { f with pos }
      return .done ret []
  | some .pipeWrite => return .goes (.write f.priv ⟨buf, 0⟩)
  | _ => failure

/-- One iteration of a call on its pipe. -/
def pendingIter : Pending → VfsM σ Progress
  | .read ptr c => do
      match pipeReadIter (← getPipe ptr) c with
      | .ret value => return .done value c.out
      | .yield => return .waits (.read ptr c)
      | .moved p _ c => do
          setPipe ptr (some p)
          return .goes (.read ptr c)
  | .write ptr c => do
      match pipeWriteIter (← getPipe ptr) c with
      | .ret value => return .done value []
      | .yield => return .waits (.write ptr c)
      | .moved p _ c => do
          setPipe ptr (some p)
          return .goes (.write ptr c)

/-- A call until it returns or gives up the processor; an iteration that does neither moves a byte. -/
def runPending : Nat → Progress → VfsM σ Progress
  | n+1, .goes call => do runPending n (← pendingIter call)
  | _, progress => return progress

def vfsRead (fd : Int) (sz : UInt32) : VfsM σ Progress := do
  runPending (sz.toNat + 1) (← vfsReadStart fd sz)

def vfsWrite (fd : Int) (buf : List UInt8) : VfsM σ Progress := do
  runPending (buf.length + 1) (← vfsWriteStart fd buf)

end Operations

end SwiftBSD.Vfs
