import SwiftBSD.Fs.Format
import Mathlib.Logic.Function.Basic

namespace SwiftBSD.Fs
open Lib

class BlockStore (σ : Type) where
  Slot : Type
  cacheGet : Nat → σ → Slot × σ
  load : Slot → σ → Option Block
  /-- Change the data behind a slot pointer, then `cache_mark_dirty` the given block. -/
  put : Slot → Nat → (Block → Block) → σ → Option σ
  cacheMarkDirty : Nat → σ → σ
  readBlock : Nat → σ → Option Block
  writeBlock : Nat → Block → σ → σ
  cacheFlushAll : σ → σ
  cacheClear : σ → σ
  cacheRewind : σ → σ

structure Disk where
  block : Nat → Block

namespace Disk

def set (d : Disk) (b : Nat) (v : Block) : Disk := ⟨Function.update d.block b v⟩

instance : BlockStore Disk where
  Slot := Nat
  cacheGet b d := (b, d)
  load b d := some (d.block b)
  put slot _ f d := some (d.set slot (f (d.block slot)))
  cacheMarkDirty _ d := d
  readBlock b d := some (d.block b)
  writeBlock b v d := d.set b v
  cacheFlushAll d := d
  cacheClear d := d
  cacheRewind d := d

end Disk

structure CacheEntry where
  block : Nat
  group : Nat
  data : Block
  dirty : Bool
  valid : Bool

namespace CacheEntry

def empty : CacheEntry := ⟨0, 0, .zero, false, false⟩

def holds (e : CacheEntry) (block group : Nat) : Bool := e.valid && e.block == block && e.group == group

end CacheEntry

structure Cache where
  disk : Nat → Block
  entry : Fin 64 → CacheEntry
  next : Fin 64

namespace Cache

def cacheLookup (c : Cache) (block group : Nat) : Option (Fin 64) :=
  (List.finRange 64).find? fun i => (c.entry i).holds block group

def writeBlock (block : Nat) (v : Block) (c : Cache) : Cache :=
  { c with disk := Function.update c.disk block v }

def advance (next : Fin 64) : Fin 64 := next + 1

/-- The miss path of `cache_get`: write the victim back if it is dirty and load the block over it. -/
def replace (block group : Nat) (c : Cache) : Cache :=
  let victim := c.entry c.next
  let c' := if victim.dirty then c.writeBlock victim.block victim.data else c
  { c' with
    entry := Function.update c.entry c.next ⟨block, group, c'.disk block, false, true⟩
    next := advance c.next }

def cacheGet (block group : Nat) (c : Cache) : Fin 64 × Cache :=
  match c.cacheLookup block group with
  | some i => (i, c)
  | none => (c.next, c.replace block group)

def cacheMarkDirty (block group : Nat) (c : Cache) : Cache :=
  match c.cacheLookup block group with
  | some i => { c with entry := Function.update c.entry i { c.entry i with dirty := true } }
  | none => c

def setData (i : Fin 64) (f : Block → Block) (c : Cache) : Cache :=
  { c with entry := Function.update c.entry i { c.entry i with data := f (c.entry i).data } }

def flushEntry (c : Cache) (i : Fin 64) : Cache :=
  if (c.entry i).valid && (c.entry i).dirty then
    { c.writeBlock (c.entry i).block (c.entry i).data with
      entry := Function.update c.entry i { c.entry i with dirty := false } }
  else c

def cacheFlushAll (c : Cache) : Cache := (List.finRange 64).foldl flushEntry c

def cacheClear (c : Cache) : Cache := { c with entry := fun _ => .empty }

def boot (disk : Disk) : Cache := ⟨disk.block, fun _ => .empty, 0⟩

instance : BlockStore Cache where
  Slot := Fin 64
  cacheGet b c := c.cacheGet b 0
  load i c := some (c.entry i).data
  put i b f c := some ((c.setData i f).cacheMarkDirty b 0)
  cacheMarkDirty b c := c.cacheMarkDirty b 0
  readBlock b c := some (c.disk b)
  writeBlock b v c := c.writeBlock b v
  cacheFlushAll c := c.cacheFlushAll
  cacheClear c := c.cacheClear
  cacheRewind c := { c with next := 0 }

end Cache

structure Pinned where
  cache : Cache

namespace Pinned

/-- Does slot `i` still hold the block it was obtained for? -/
def fresh (c : Cache) (slot : Fin 64 × Nat) : Bool := (c.entry slot.1).holds slot.2 0

/-- Is there a modified copy of the block in the cache? -/
def modified (c : Cache) (block : Nat) : Bool :=
  (List.finRange 64).any fun i => (c.entry i).holds block 0 && (c.entry i).dirty

instance : BlockStore Pinned where
  Slot := Fin 64 × Nat
  cacheGet b c := (((c.cache.cacheGet b 0).1, b), ⟨(c.cache.cacheGet b 0).2⟩)
  load slot c := if fresh c.cache slot then some (c.cache.entry slot.1).data else none
  put slot b f c :=
    if fresh c.cache slot && slot.2 == b then some ⟨(c.cache.setData slot.1 f).cacheMarkDirty b 0⟩ else none
  cacheMarkDirty b c := ⟨c.cache.cacheMarkDirty b 0⟩
  readBlock b c := if modified c.cache b then none else some (c.cache.disk b)
  writeBlock b v c := ⟨c.cache.writeBlock b v⟩
  cacheFlushAll c := ⟨c.cache.cacheFlushAll⟩
  cacheClear c := ⟨c.cache.cacheClear⟩
  cacheRewind c := ⟨{ c.cache with next := 0 }⟩

end Pinned

end SwiftBSD.Fs
