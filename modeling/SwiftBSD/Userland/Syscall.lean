import SwiftBSD.Lib.Bytes
import SwiftBSD.User.Vma

namespace SwiftBSD.Userland
open Lib User

/-- 4 bytes of padding stand between `pad` and `offset`. -/
structure MmapArgs where
  flags : Int32
  fd : Int32
  pad : Int32
  offset : UInt64

namespace MmapArgs

def bytes (a : MmapArgs) : List UInt8 :=
  leBytes 4 a.flags.toUInt32.toNat ++ leBytes 4 a.fd.toUInt32.toNat ++ leBytes 4 a.pad.toUInt32.toNat ++ List.replicate 4 0 ++
    leBytes 8 a.offset.toNat

/-- `*(long *)&a` -/
def word (a : MmapArgs) : UInt64 := .ofNat (leNat (a.bytes.take 8))

end MmapArgs

/-- `rdi`, `rsi` and `rdx` at the `syscall` instruction. -/
structure Registers where
  arg1 : UInt64
  arg2 : UInt64
  arg3 : UInt64

/-- What `mmap` passes. It does nothing with `prot`. -/
def mmap (addr length : UInt64) (_prot flags fd : Int32) (offset : UInt64) : Registers :=
  let a : MmapArgs := ⟨flags, fd, 0, offset⟩
  ⟨addr, length, a.word⟩

/-- The call in the kernel; `behind` is what its stack holds 16 bytes after `arg3`. -/
def callMmap (r : Registers) (behind : UInt64) : UserM UInt64 := scMmap r.arg1 r.arg2 r.arg3 behind

end SwiftBSD.Userland
