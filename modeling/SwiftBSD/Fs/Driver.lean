import SwiftBSD.Fs.Store
import SwiftBSD.Hal.Ahci

namespace SwiftBSD.Fs.Ahci
open Lib Hal

/-- `port` is `g_port`, and `entry` and `next` are `g_cache` and `g_cache_next`. -/
structure Driver where
  hba : Hba
  port : Int
  entry : Fin 64 → CacheEntry
  next : Fin 64

abbrev DriverM := Prog Driver

def onHba {α : Type} (x : HbaM α) : DriverM α := fun d => (x.run d.hba).map fun (a, hba) => (a, { d with hba })

def fsBlockToSector (fsBlock : UInt64) : UInt64 := fsBlock * 8

/-- A buffer of the size of a block. -/
def ofBuf (buf : Nat → UInt8) : Block := ⟨fun i => buf i.val⟩

/-- The result, and what the buffer holds afterwards. -/
def readBlock (block : UInt64) (buf : Block) : DriverM (Int × Block) := do
  let (ret, buf) ← onHba (ahciRead (← get).port (fsBlockToSector block) buf.get 8)
  return (ret, ofBuf buf)

def writeBlock (block : UInt64) (buf : Block) : DriverM Int := do
  onHba (ahciWrite (← get).port (fsBlockToSector block) buf.get 8)

def cacheLookup (entry : Fin 64 → CacheEntry) (block group : Nat) : Option (Fin 64) :=
  (List.finRange 64).find? fun i => (entry i).holds block group

def setEntry (i : Fin 64) (e : CacheEntry) : DriverM Unit := modify fun d => { d with entry := Function.update d.entry i e }

/-- A pointer to the data is the index of its entry. -/
def cacheGet (block : UInt32) (group : Nat) : DriverM (Fin 64) := do
  match cacheLookup (← get).entry block.toNat group with
  | some idx => return idx
  | none =>
      let idx := (← get).next
      modify fun d => { d with next := Cache.advance d.next }
      let e := (← get).entry idx
      if e.dirty then
        let _ ← writeBlock (.ofNat e.block) e.data
      setEntry idx ⟨block.toNat, group, e.data, false, true⟩
      let (_, data) ← readBlock block.toUInt64 e.data
      setEntry idx ⟨block.toNat, group, data, false, true⟩
      return idx

def cacheMarkDirty (block : UInt32) (group : Nat) : DriverM Unit := do
  match cacheLookup (← get).entry block.toNat group with
  | some i => setEntry i { (← get).entry i with dirty := true }
  | none => return

def flushEntry (i : Fin 64) : DriverM Unit := do
  let e := (← get).entry i
  if e.valid && e.dirty then
    let _ ← writeBlock (.ofNat e.block) e.data
    setEntry i { e with dirty := false }

def cacheFlushAll : DriverM Unit := (List.finRange 64).forM flushEntry

/-- What the file system does with its blocks. -/
inductive BlockOp
  | get (block : UInt32)
  | modify (block : UInt32) (f : Block → Block)
  | flush
  | read (block : UInt64) (buf : Block)
  | write (block : UInt64) (v : Block)

/-- The data that the operation reads, if it reads any. -/
def BlockOp.exec : BlockOp → DriverM (Option Block)
  | .get block => do
      let i ← cacheGet block 0
      return some ((← MonadState.get).entry i).data
  | .modify block f => do
      let i ← cacheGet block 0
      let e := (← MonadState.get).entry i
      setEntry i { e with data := f e.data }
      cacheMarkDirty block 0
      return none
  | .flush => do
      cacheFlushAll
      return none
  | .read block buf => do
      let (_, data) ← readBlock block buf
      return some data
  | .write block v => do
      let _ ← writeBlock block v
      return none

/-- The operation on the cache whose disk is an array of blocks. -/
def BlockOp.run (c : Cache) : BlockOp → Option Block × Cache
  | .get block => (some ((c.cacheGet block.toNat 0).2.entry (c.cacheGet block.toNat 0).1).data, (c.cacheGet block.toNat 0).2)
  | .modify block f =>
      (none, ((c.cacheGet block.toNat 0).2.setData (c.cacheGet block.toNat 0).1 f).cacheMarkDirty block.toNat 0)
  | .flush => (none, c.cacheFlushAll)
  | .read block _ => (some (c.disk block.toNat), c)
  | .write block v => (none, c.writeBlock block.toNat v)

/-- The answers to one operation after the other, and the cache at the end. -/
def BlockOp.runs (c : Cache) : List BlockOp → List (Option Block) × Cache
  | [] => ([], c)
  | op :: rest => ((op.run c).1 :: (runs (op.run c).2 rest).1, (runs (op.run c).2 rest).2)

end SwiftBSD.Fs.Ahci
