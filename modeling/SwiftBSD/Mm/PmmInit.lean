import SwiftBSD.Mm.Pmm

namespace SwiftBSD.Mm
open Lib

structure MmapEntry where
  addr : UInt64
  len : UInt64
  type : UInt32

structure MbootTag where
  type : UInt32
  size : UInt32
  entrySize : UInt32
  entries : Nat → MmapEntry

def kheapSize : UInt64 := 1024 * 1024

/-- `n` is an `int`. -/
def MbootTag.count (tag : MbootTag) : Nat :=
  ((tag.size.toUInt64 - 16) / tag.entrySize.toUInt64).toUInt32.toInt32.toInt.toNat

def MmapEntry.firstPage (e : MmapEntry) : Nat := ((e.addr + 4095) / 4096).toNat

def MmapEntry.endPage (e : MmapEntry) : Nat := min ((e.addr + e.len) / 4096).toNat maxPages

def clearPage (p : Nat) : MmM Unit := modify fun m =>
  { m with bitmap := Function.update m.bitmap p false, freePageCount := m.freePageCount + 1 }

/-- `total` is `total_mem`, which `pmm_total_mem` returns and nothing else reads. -/
def addEntry (total : UInt64) (e : MmapEntry) : MmM UInt64 := do
  if e.type = 1 then
    forRange clearPage e.firstPage (e.endPage - e.firstPage)
    modify fun m =>
      { m with
        lastPhysPage := max m.lastPhysPage e.endPage
        bounded := Nat.max_le.mpr ⟨m.bounded, Nat.min_le_right _ _⟩ }
    return total + e.len
  else return total

def addMap (total : UInt64) (tag : MbootTag) : MmM UInt64 :=
  if tag.entrySize = 0 then failure else ((List.range tag.count).map tag.entries).foldlM addEntry total

/-- The tags end with one of type 0. -/
def readTags (total : UInt64) : List MbootTag → MmM UInt64
  | [] => failure
  | tag :: rest => do
      if tag.type = 0 then return total
      else if tag.type = 6 then readTags (← addMap total tag) rest
      else readTags total rest

def reservePage (p : Nat) : MmM Unit := do
  if maxPages ≤ p then failure
  let m ← get
  if !m.bitmap p then set { m with bitmap := Function.update m.bitmap p true, freePageCount := m.freePageCount - 1 }

def kernelEndPage (bssEnd : UInt64) : Nat := ((bssEnd + kheapSize + 4095) / 4096).toNat

def pmmInit (bssEnd : UInt64) (tags : List MbootTag) : MmM UInt64 := do
  modify fun m => { m with bitmap := fun _ => true, lastPhysPage := 0, freePageCount := 0, bounded := Nat.zero_le _ }
  let total ← readTags 0 tags
  forRange reservePage 0 (kernelEndPage bssEnd)
  return total

/-- The records of the memory map, in order. -/
def mapEntries : List MbootTag → List MmapEntry
  | [] => []
  | tag :: rest =>
      if tag.type = 0 then []
      else if tag.type = 6 then (List.range tag.count).map tag.entries ++ mapEntries rest
      else mapEntries rest

def available (tags : List MbootTag) : List MmapEntry := (mapEntries tags).filter (·.type = 1)

/-- Pages are taken and given back; `live` has the addresses that are taken. -/
inductive PmmRun (s : Machine) : List UInt64 → Machine → Prop
  | start : PmmRun s [] s
  | alloc {live : List UInt64} {t u : Machine} {a : UInt64} (before : PmmRun s live t) (run : pageAlloc.run t = some (a, u)) :
      PmmRun s (if a = 0 then live else a :: live) u
  | free {live : List UInt64} {t u : Machine} {a : UInt64} (before : PmmRun s live t) (owned : a ∈ live)
      (run : (pageFree a).run t = some ((), u)) : PmmRun s (live.erase a) u

end SwiftBSD.Mm
