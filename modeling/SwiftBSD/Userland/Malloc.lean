import SwiftBSD.Lib.Bytes
import SwiftBSD.Lib.Loop
import SwiftBSD.Mm.Vmm

namespace SwiftBSD.Userland
open Lib

/-- `lists` are the `free_lists`; `brk` is the `heap_break` that the kernel keeps; `grown` counts the requests that made the kernel look
for memory. -/
structure Arena where
  mem : UInt64 → UInt8
  lists : Nat → UInt64
  brk : UInt64
  grown : Nat

abbrev MallocM := Prog Arena

def heapStart : UInt64 := 0x10000000

/-- What the kernel has for the heap: which of the requests it meets, and what is in the new pages. Every page of the heap has a frame of
its own. -/
structure Supply where
  grants : Nat → UInt64 → Bool
  fresh : Nat → UInt64 → UInt8
  bounded : ∀ n newPage, grants n newPage = true → newPage.toNat ≤ heapStart.toNat + 4096 * Mm.maxPages

def bytesAt (mem : UInt64 → UInt8) (a : UInt64) (n : Nat) : List UInt8 := (List.range n).map fun i => mem (a + .ofNat i)

def putBytes (mem : UInt64 → UInt8) (a : UInt64) (bytes : List UInt8) : UInt64 → UInt8 :=
  fun x => if (x - a).toNat < bytes.length then bytes.getD (x - a).toNat 0 else mem x

def storeBytes (a : UInt64) (bytes : List UInt8) : MallocM Unit := modify fun s => { s with mem := putBytes s.mem a bytes }

/-! A `malloc_hdr` at `h`: two fields of 2 bytes, 4 bytes of padding, and a pointer. -/

def magicAt (mem : UInt64 → UInt8) (h : UInt64) : UInt16 := .ofNat (leNat (bytesAt mem h 2))

def bucketAt (mem : UInt64 → UInt8) (h : UInt64) : UInt16 := .ofNat (leNat (bytesAt mem (h + 2) 2))

def nextAt (mem : UInt64 → UInt8) (h : UInt64) : UInt64 := .ofNat (leNat (bytesAt mem (h + 8) 8))

def setMagic (h : UInt64) (v : UInt16) : MallocM Unit := storeBytes h (leBytes 2 v.toNat)

def setBucket (h : UInt64) (v : UInt16) : MallocM Unit := storeBytes (h + 2) (leBytes 2 v.toNat)

def setNext (h next : UInt64) : MallocM Unit := storeBytes (h + 8) (leBytes 8 next.toNat)

def setList (b : Nat) (h : UInt64) : MallocM Unit := modify fun s => { s with lists := Function.update s.lists b h }

def failed : UInt64 := 0xFFFFFFFFFFFFFFFF

def pageUp (x : UInt64) : UInt64 := (x + 0xFFF) &&& Mm.pageMask

def scBrk (kernel : Supply) (newBrk : UInt64) : MallocM UInt64 := do
  let s ← get
  if newBrk = 0 then return s.brk
  if newBrk < heapStart then return failed
  let oldPage := s.brk &&& Mm.pageMask
  let newPage := pageUp newBrk
  if oldPage < newPage then
    set { s with
      grown := s.grown + 1
      mem := fun x => if oldPage ≤ x ∧ x < newPage then kernel.fresh s.grown x else s.mem x
      brk := if kernel.grants s.grown newPage then newBrk else s.brk }
    return if kernel.grants s.grown newPage then newBrk else failed
  else
    set { s with brk := newBrk }
    return newBrk

def sbrk (kernel : Supply) (increment : UInt64) : MallocM UInt64 := do
  let cur ← scBrk kernel 0
  if increment = 0 then return cur
  let new ← scBrk kernel (cur + increment)
  return if new = failed then failed else cur

def mallocBuckets : Nat := 9

def headerSize : UInt64 := 16

def magicNumber : UInt16 := 0xBEEF

def bucketSz (b : Nat) : UInt64 := [16, 32, 64, 128, 256, 512, 1024, 2048, 4096].getD b 0

def mallocBucket (size : UInt64) : Option Nat :=
  if size ≤ 16 then some 0 else firstFrom (fun i => size + headerSize ≤ bucketSz i) 0 mallocBuckets

def addBlock (b : Nat) (h : UInt64) : MallocM Unit := do
  setMagic h magicNumber
  setBucket h (.ofNat b)
  setNext h ((← get).lists b)
  setList b h

/-- The comparison is one of `long`s. -/
def extendTo (kernel : Supply) (pageEnd : UInt64) : MallocM Bool := do
  let cur ← sbrk kernel 0
  if cur.toInt64 < pageEnd.toInt64 then return (← sbrk kernel (pageEnd - cur)) != failed
  else return true

def mallocAddPage (kernel : Supply) (b : Nat) : MallocM Unit := do
  let sz := bucketSz b
  let pageAvail := 4096 / sz
  let needed := if 0 < pageAvail then pageAvail else 1
  let addr ← sbrk kernel 0
  if ← extendTo kernel (pageUp (addr + needed * sz)) then forRange (fun i => addBlock b (addr + .ofNat i * sz)) 0 needed.toNat

/-- The front of a list is given out. -/
def takeBlock (b : Nat) : MallocM UInt64 := do
  let h := (← get).lists b
  if h = 0 then return 0
  setList b (nextAt (← get).mem h)
  setMagic h magicNumber
  return h + headerSize

def mallocLarge (kernel : Supply) (size : UInt64) : MallocM UInt64 := do
  let cur ← sbrk kernel 0
  if (← sbrk kernel (pageUp size)) = failed then return 0
  return cur

def malloc (kernel : Supply) (size : UInt64) : MallocM UInt64 := do
  if size = 0 then return 0
  if 4096 < size then mallocLarge kernel size
  else match mallocBucket size with
    | none => return 0
    | some b => do
        if (← get).lists b = 0 then mallocAddPage kernel b
        takeBlock b

/-- The header in front of a block. Nothing is mapped below the heap: a process that looks for a header there does not come back from the page
fault. -/
def header (ptr : UInt64) : MallocM UInt64 :=
  if ptr - headerSize < heapStart then failure else return ptr - headerSize

def free (ptr : UInt64) : MallocM Unit := do
  if ptr = 0 then return
  let h ← header ptr
  let mem := (← get).mem
  if magicAt mem h ≠ magicNumber then return
  let b := (bucketAt mem h).toNat
  if mallocBuckets ≤ b then return
  setNext h ((← get).lists b)
  setList b h

def calloc (kernel : Supply) (nmemb size : UInt64) : MallocM UInt64 := do
  let total := nmemb * size
  let p ← malloc kernel total
  if p ≠ 0 then forRange (fun i => storeBytes (p + .ofNat i) [0]) 0 total.toNat
  return p

def copyByte (dst src : UInt64) (i : Nat) : MallocM Unit := do
  storeBytes (dst + .ofNat i) [(← get).mem (src + .ofNat i)]

/-- What `realloc` takes for the size of the old block. -/
def oldSize (mem : UInt64 → UInt8) (ptr : UInt64) : UInt64 :=
  let b := (bucketAt mem (ptr - headerSize)).toNat
  if b < mallocBuckets then bucketSz b - headerSize else 0

def realloc (kernel : Supply) (ptr newSize : UInt64) : MallocM UInt64 := do
  if ptr = 0 then malloc kernel newSize
  else if newSize = 0 then do
    free ptr
    return 0
  else do
    let _ ← header ptr
    let old := oldSize (← get).mem ptr
    let newp ← malloc kernel newSize
    if newp = 0 then return 0
    forRange (copyByte newp ptr) 0 (if old < newSize then old else newSize).toNat
    free ptr
    return newp

inductive MallocCall where
  | malloc (size : UInt64)
  | calloc (nmemb size : UInt64)
  | realloc (ptr newSize : UInt64)
  | free (ptr : UInt64)
  | store (mem : UInt64 → UInt8)

/-- The live allocations, with the numbers of bytes that were asked for. -/
abbrev Live := List (UInt64 × Nat)

def Live.add (live : Live) (p : UInt64) (n : Nat) : Live := if p = 0 then live else (p, n) :: live

/-- A call, and what is live afterwards. A program stores to its allocations and to memory outside of the heap. -/
inductive MallocStep (kernel : Supply) (live : Live) (s : Arena) : MallocCall → Live → Arena → Prop
  | malloc {size p : UInt64} {t : Arena} (run : (malloc kernel size).run s = some (p, t)) :
      MallocStep kernel live s (.malloc size) (live.add p size.toNat) t
  | calloc {nmemb size p : UInt64} {t : Arena} (run : (calloc kernel nmemb size).run s = some (p, t)) :
      MallocStep kernel live s (.calloc nmemb size) (live.add p (nmemb.toNat * size.toNat)) t
  | reallocNull {newSize p : UInt64} {t : Arena} (run : (realloc kernel 0 newSize).run s = some (p, t)) :
      MallocStep kernel live s (.realloc 0 newSize) (live.add p newSize.toNat) t
  | reallocFree {ptr : UInt64} {n : Nat} {p : UInt64} {t : Arena} (owned : (ptr, n) ∈ live)
      (run : (realloc kernel ptr 0).run s = some (p, t)) : MallocStep kernel live s (.realloc ptr 0) (live.erase (ptr, n)) t
  | realloc {ptr newSize p : UInt64} {n : Nat} {t : Arena} (owned : (ptr, n) ∈ live) (some_ : newSize ≠ 0)
      (run : (realloc kernel ptr newSize).run s = some (p, t)) :
      MallocStep kernel live s (.realloc ptr newSize) (if p = 0 then live else (p, newSize.toNat) :: live.erase (ptr, n)) t
  | freeNull {t : Arena} (run : (free 0).run s = some ((), t)) : MallocStep kernel live s (.free 0) live t
  | free {ptr : UInt64} {n : Nat} {t : Arena} (owned : (ptr, n) ∈ live) (run : (free ptr).run s = some ((), t)) :
      MallocStep kernel live s (.free ptr) (live.erase (ptr, n)) t
  | store {mem : UInt64 → UInt8}
      (inside : ∀ x, mem x ≠ s.mem x → (∃ l ∈ live, (x - l.1).toNat < l.2) ∨ x < heapStart ∨ s.brk ≤ x) :
      MallocStep kernel live s (.store mem) live { s with mem := mem }

/-- Runs of a program from its start on whose calls all meet `P`. -/
inductive MallocRun (kernel : Supply) (P : Live → Arena → MallocCall → Prop) : Live → Arena → Prop
  | start {mem : UInt64 → UInt8} : MallocRun kernel P [] ⟨mem, fun _ => 0, heapStart, 0⟩
  | step {live live' : Live} {s t : Arena} {call : MallocCall} (before : MallocRun kernel P live s) (meets : P live s call)
      (step : MallocStep kernel live s call live' t) : MallocRun kernel P live' t

/-- `a` is on the free list that starts at `h`. -/
inductive OnList (mem : UInt64 → UInt8) : UInt64 → UInt64 → Prop
  | front {h : UInt64} (some_ : h ≠ 0) : OnList mem h h
  | later {h a : UInt64} (some_ : h ≠ 0) (rest : OnList mem (nextAt mem h) a) : OnList mem h a

end SwiftBSD.Userland
