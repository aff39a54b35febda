import Mathlib.Algebra.Group.Nat.Defs
import SwiftBSD.Lib.Prog
import SwiftBSD.Mm.PmmInit

namespace SwiftBSD.Mm.Heap
open Lib

/-- `words` are the 8-byte words of `heap_pool`, counted from its start. -/
structure Kheap where
  words : Nat → UInt64
  head : UInt64

abbrev KheapM := Prog Kheap

def headerSize : UInt64 := 24

/-- The word at an address. Nothing outside of the pool is touched. -/
def poolWord (pool p : UInt64) : KheapM Nat :=
  if (p - pool).toNat % 8 = 0 ∧ (p - pool).toNat < kheapSize.toNat then pure ((p - pool).toNat / 8) else failure

def loadPool (pool p : UInt64) : KheapM UInt64 := do
  let i ← poolWord pool p
  return (← get).words i

def storePool (pool p value : UInt64) : KheapM Unit := do
  let i ← poolWord pool p
  modify fun h => { h with words := Function.update h.words i value }

def blockSize (pool b : UInt64) : KheapM UInt64 := loadPool pool b

def setBlockSize (pool b size : UInt64) : KheapM Unit := storePool pool b size

/-- `free` is an `int`, with 4 bytes of padding behind it. -/
def blockFree (pool b : UInt64) : KheapM Bool := return (← loadPool pool (b + 8)).toUInt32 != 0

def setBlockFree (pool b : UInt64) (free : UInt32) : KheapM Unit := do
  let old ← loadPool pool (b + 8)
  storePool pool (b + 8) (old &&& 0xFFFFFFFF00000000 ||| free.toUInt64)

def blockNext (pool b : UInt64) : KheapM UInt64 := loadPool pool (b + 16)

def setBlockNext (pool b next : UInt64) : KheapM Unit := storePool pool (b + 16) next

def kheapInit (pool : UInt64) : KheapM Unit := do
  modify fun h => { h with head := pool }
  setBlockSize pool pool (kheapSize - headerSize)
  setBlockFree pool pool 1
  setBlockNext pool pool 0

def splitBlock (pool b size : UInt64) : KheapM Unit := do
  let room ← blockSize pool b
  if size + headerSize < room then
    let newB := b + headerSize + size
    setBlockSize pool newB (room - size - headerSize)
    setBlockFree pool newB 1
    setBlockNext pool newB (← blockNext pool b)
    setBlockSize pool b size
    setBlockNext pool b newB

/-- The blocks of a list lie in the pool, so there are fewer of them than words. -/
def maxBlocks : Nat := kheapSize.toNat / 8

def kmallocFrom (pool size : UInt64) : Nat → UInt64 → KheapM UInt64
  | 0, _ => failure
  | fuel+1, b => do
      if b = 0 then return 0
      let free ← blockFree pool b
      let room ← blockSize pool b
      if free = true ∧ size ≤ room then
        splitBlock pool b size
        setBlockFree pool b 0
        return b + headerSize
      else kmallocFrom pool size fuel (← blockNext pool b)

def roundUp (size : UInt64) : UInt64 := (size + 7) &&& 0xFFFFFFFFFFFFFFF8

def kmalloc (pool size : UInt64) : KheapM UInt64 := do
  kmallocFrom pool (roundUp size) maxBlocks (← get).head

def joinNext (pool cur : UInt64) : KheapM Unit := do
  if ← blockFree pool cur then
    let next ← blockNext pool cur
    if next ≠ 0 then
      if ← blockFree pool next then
        setBlockSize pool cur ((← blockSize pool cur) + (headerSize + (← blockSize pool next)))
        setBlockNext pool cur (← blockNext pool next)

def joinFrom (pool : UInt64) : Nat → UInt64 → KheapM Unit
  | 0, _ => failure
  | fuel+1, cur => do
      if cur = 0 then return
      joinNext pool cur
      joinFrom pool fuel (← blockNext pool cur)

def kfree (pool ptr : UInt64) : KheapM Unit := do
  if ptr = 0 then return
  setBlockFree pool (ptr - headerSize) 1
  joinFrom pool maxBlocks (← get).head

/-- The calls a kernel makes, and what it stores in memory it was given; `live` has the addresses with the sizes asked for. -/
inductive KheapRun (pool : UInt64) : List (UInt64 × UInt64) → Kheap → Prop
  | init {s t : Kheap} (run : (kheapInit pool).run s = some ((), t)) : KheapRun pool [] t
  | malloc {live : List (UInt64 × UInt64)} {s t : Kheap} {size p : UInt64} (before : KheapRun pool live s)
      (bound : size.toNat ≤ 2 ^ 64 - 8) (run : (kmalloc pool size).run s = some (p, t)) :
      KheapRun pool (if p = 0 then live else (p, size) :: live) t
  | free {live : List (UInt64 × UInt64)} {s t : Kheap} {ptr size : UInt64} (before : KheapRun pool live s) (owned : (ptr, size) ∈ live)
      (run : (kfree pool ptr).run s = some ((), t)) : KheapRun pool (live.erase (ptr, size)) t
  | freeNull {live : List (UInt64 × UInt64)} {s t : Kheap} (before : KheapRun pool live s) (run : (kfree pool 0).run s = some ((), t)) :
      KheapRun pool live t
  | store {live : List (UInt64 × UInt64)} {s t : Kheap} {ptr size : UInt64} (before : KheapRun pool live s) (owned : (ptr, size) ∈ live)
      (head : t.head = s.head)
      (inside : ∀ i, t.words i ≠ s.words i → (ptr - pool).toNat ≤ 8 * i ∧ 8 * i < (ptr - pool).toNat + size.toNat) :
      KheapRun pool live t

end SwiftBSD.Mm.Heap
