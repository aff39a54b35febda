import SwiftBSD.Fs.Store

namespace SwiftBSD.Fs.Io
open Lib

/-- The outcome of a write: `some left` is a failure that leaves `left` on the disk. -/
abbrev Outcome := Option Block

/-- `calls` are the calls of `write_block` so far. -/
structure Drive where
  cache : Cache
  calls : List (Nat × Block)

namespace Drive

def writeBlock (block : Nat) (v : Block) (out : Outcome) (d : Drive) : Drive :=
  ⟨d.cache.writeBlock block (out.getD v), d.calls ++ [(block, v)]⟩

/-- The miss path of `cache_get`; `ok` is false if the read fails. -/
def replace (block group : Nat) (out : Outcome) (ok : Bool) (d : Drive) : Drive :=
  let next := d.cache.next
  let victim := d.cache.entry next
  let d := if victim.dirty then d.writeBlock victim.block victim.data out else d
  let data := if ok then d.cache.disk block else victim.data
  { d with cache := { d.cache with
      entry := Function.update d.cache.entry next ⟨block, group, data, false, true⟩
      next := Cache.advance next } }

/-- A pointer to the data; `none` would be the null pointer. -/
def cacheGet (block group : Nat) (out : Outcome) (ok : Bool) (d : Drive) : Option (Fin 64) × Drive :=
  match d.cache.cacheLookup block group with
  | some i => (some i, d)
  | none => (some d.cache.next, d.replace block group out ok)

/-- The call has to read the block, and the read fails. -/
def readFails (block group : Nat) (ok : Bool) (d : Drive) : Bool := (d.cache.cacheLookup block group).isNone && !ok

/-- The data behind a pointer is changed, and the block is marked. -/
def store (pointer : Option (Fin 64)) (block group : Nat) (f : Block → Block) (d : Drive) : Drive :=
  match pointer with
  | some i => { d with cache := (d.cache.setData i f).cacheMarkDirty block group }
  | none => d

def flushEntry (out : Fin 64 → Outcome) (d : Drive) (i : Fin 64) : Drive :=
  let e := d.cache.entry i
  if e.valid && e.dirty then
    let d := d.writeBlock e.block e.data (out i)
    { d with cache := { d.cache with entry := Function.update d.cache.entry i { e with dirty := false } } }
  else d

def cacheFlushAll (out : Fin 64 → Outcome) (d : Drive) : Drive := (List.finRange 64).foldl (flushEntry out) d

end Drive

/-- An operation, with the outcomes of the transfers it may make. -/
inductive Op
  | get (block : Nat) (out : Outcome) (ok : Bool)
  | modify (block : Nat) (f : Block → Block) (out : Outcome) (ok : Bool)
  | flush (out : Fin 64 → Outcome)

def Op.run (d : Drive) : Op → Drive
  | .get block out ok => (d.cacheGet block 0 out ok).2
  | .modify block f out ok =>
      let r := d.cacheGet block 0 out ok
      r.2.store r.1 block 0 f
  | .flush out => d.cacheFlushAll out

/-- What the operation is to do to the contents of the blocks: a block that cannot be read is not changed. -/
def Op.apply (d : Drive) (L : Nat → Block) : Op → Nat → Block
  | .get _ _ _ | .flush _ => L
  | .modify block f _ ok => if d.readFails block 0 ok then L else Function.update L block (f (L block))

/-- The operation with transfers that succeed. -/
inductive CacheOp
  | get (block : Nat)
  | modify (block : Nat) (f : Block → Block)
  | flush

def CacheOp.run (c : Cache) : CacheOp → Cache
  | .get block => (c.cacheGet block 0).2
  | .modify block f =>
      let r := c.cacheGet block 0
      (r.2.setData r.1 f).cacheMarkDirty block 0
  | .flush => c.cacheFlushAll

def CacheOp.apply (L : Nat → Block) : CacheOp → Nat → Block
  | .get _ | .flush => L
  | .modify block f => Function.update L block (f (L block))

end SwiftBSD.Fs.Io
