import SwiftBSD.Lib.Bytes

namespace SwiftBSD.Vfs
open Lib

def pipeBufSize : UInt32 := 4096

structure Pipe where
  buf : Bytes 4096
  rpos : UInt32
  wpos : UInt32
  readers : Int
  writers : Int

/-- `(int)` of an unsigned value. -/
def toInt (x : UInt32) : Int := Int.bmod x.toNat (2 ^ 32)

/-- The variables of `pipe_read_op`; `out` is what it has copied to the caller's buffer. -/
structure PipeRead where
  sz : UInt32
  total : UInt32
  out : List UInt8

/-- The variables of `pipe_write_op`; `buf` is what the caller's buffer still holds, `sz` bytes. -/
structure PipeWrite where
  buf : List UInt8
  total : UInt32

/-- What an iteration comes to: the call returns, yields, or has moved some bytes. -/
inductive Iter (Call : Type)
  | ret (value : Int)
  | yield
  | moved (pipe : Pipe) (bytes : List UInt8) (call : Call)

def pipeReadIter (p : Pipe) (c : PipeRead) : Iter PipeRead :=
  if c.sz = 0 then .ret (toInt c.total)
  else
    let avail := p.wpos - p.rpos
    if avail = 0 then
      if p.writers = 0 then .ret (toInt c.total) else .yield
    else
      let n := if c.sz < avail then c.sz else avail
      let off := p.rpos % pipeBufSize
      let bytes :=
        if off + n ≤ pipeBufSize then p.buf.read off.toNat n.toNat
        else
          let first := pipeBufSize - off
          p.buf.read off.toNat first.toNat ++ p.buf.read 0 (n - first).toNat
      .moved { p with rpos := p.rpos + n } bytes ⟨c.sz - n, c.total + n, c.out ++ bytes⟩

def pipeWriteIter (p : Pipe) (c : PipeWrite) : Iter PipeWrite :=
  let sz := UInt32.ofNat c.buf.length
  if sz = 0 then .ret (toInt c.total)
  else
    let space := pipeBufSize - (p.wpos - p.rpos)
    if space = 0 then
      if p.readers = 0 then .ret (if 0 < c.total then toInt c.total else -1) else .yield
    else
      let n := if sz < space then sz else space
      let off := p.wpos % pipeBufSize
      let bytes := c.buf.take n.toNat
      let buf :=
        if off + n ≤ pipeBufSize then p.buf.write off.toNat bytes
        else
          let first := pipeBufSize - off
          (p.buf.write off.toNat (bytes.take first.toNat)).write 0 (bytes.drop first.toNat)
      .moved { p with buf, wpos := p.wpos + n } bytes ⟨c.buf.drop n.toNat, c.total + n⟩

inductive PipeCall
  | reading (c : PipeRead)
  | writing (c : PipeWrite)
  | returned (value : Int)

/-- Calls are numbered in the order in which they are made. -/
structure PipeSys where
  pipe : Pipe
  calls : List PipeCall

inductive PipeEvent
  | call
  | yield (id : Nat)
  | deliver (id : Nat) (bytes : List UInt8)
  | accept (id : Nat) (bytes : List UInt8)
  | ret (id : Nat) (value : Int)
  | ends
deriving DecidableEq

/-- One step: a call begins, a call makes one iteration, or an end of the pipe is opened or closed. A buffer has a
length that fits in `sz`. -/
inductive PipeStep : PipeSys → PipeEvent → PipeSys → Prop
  | read {s : PipeSys} (sz : UInt32) : PipeStep s .call { s with calls := s.calls ++ [.reading ⟨sz, 0, []⟩] }
  | write {s : PipeSys} (buf : List UInt8) (fits : buf.length < 2 ^ 32) :
      PipeStep s .call { s with calls := s.calls ++ [.writing ⟨buf, 0⟩] }
  | readYield {s : PipeSys} {id : Nat} {c : PipeRead} (running : s.calls[id]? = some (.reading c))
      (iter : pipeReadIter s.pipe c = .yield) : PipeStep s (.yield id) s
  | readMoved {s : PipeSys} {id : Nat} {c c' : PipeRead} {pipe : Pipe} {bytes : List UInt8}
      (running : s.calls[id]? = some (.reading c)) (iter : pipeReadIter s.pipe c = .moved pipe bytes c') :
      PipeStep s (.deliver id bytes) ⟨pipe, s.calls.set id (.reading c')⟩
  | readRet {s : PipeSys} {id : Nat} {c : PipeRead} {value : Int} (running : s.calls[id]? = some (.reading c))
      (iter : pipeReadIter s.pipe c = .ret value) :
      PipeStep s (.ret id value) { s with calls := s.calls.set id (.returned value) }
  | writeYield {s : PipeSys} {id : Nat} {c : PipeWrite} (running : s.calls[id]? = some (.writing c))
      (iter : pipeWriteIter s.pipe c = .yield) : PipeStep s (.yield id) s
  | writeMoved {s : PipeSys} {id : Nat} {c c' : PipeWrite} {pipe : Pipe} {bytes : List UInt8}
      (running : s.calls[id]? = some (.writing c)) (iter : pipeWriteIter s.pipe c = .moved pipe bytes c') :
      PipeStep s (.accept id bytes) ⟨pipe, s.calls.set id (.writing c')⟩
  | writeRet {s : PipeSys} {id : Nat} {c : PipeWrite} {value : Int} (running : s.calls[id]? = some (.writing c))
      (iter : pipeWriteIter s.pipe c = .ret value) :
      PipeStep s (.ret id value) { s with calls := s.calls.set id (.returned value) }
  | ends {s : PipeSys} (readers writers : Int) : PipeStep s .ends { s with pipe := { s.pipe with readers, writers } }

/-- The runs of a pipe that starts empty, with what happened in them. -/
inductive PipeRun : List PipeEvent → PipeSys → Prop
  | start {p : Pipe} (rpos : p.rpos = 0) (wpos : p.wpos = 0) : PipeRun [] ⟨p, []⟩
  | step {events : List PipeEvent} {s t : PipeSys} {e : PipeEvent} (before : PipeRun events s) (step : PipeStep s e t) :
      PipeRun (events ++ [e]) t

def PipeEvent.delivered : PipeEvent → List UInt8
  | .deliver _ bytes => bytes
  | _ => []

def PipeEvent.accepted : PipeEvent → List UInt8
  | .accept _ bytes => bytes
  | _ => []

/-- The bytes of an event that call `id` has moved. -/
def PipeEvent.movedBy (id : Nat) : PipeEvent → List UInt8
  | .deliver mover bytes => if mover = id then bytes else []
  | .accept mover bytes => if mover = id then bytes else []
  | _ => []

end SwiftBSD.Vfs
