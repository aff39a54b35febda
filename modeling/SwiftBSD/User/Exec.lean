import SwiftBSD.User.Fault

namespace SwiftBSD.User
open Lib Mm Vfs Sched

def heapFlags : UInt64 := pgPresent ||| pgWrite ||| pgUser ||| pgNx

/-- One page more; `some ()` is the early `return -1`. -/
def growHeap (v : UInt64) : MmM (Option Unit) := do
  let phys ← pageAlloc
  if phys = 0 then return some ()
  vmmMap v phys heapFlags
  return none

/-- The two bounds are page-aligned, and `v` reaches the upper one before it can wrap around. -/
def growPages (oldPage newPage : UInt64) : MmM (Option Unit) :=
  searchM (fun k => growHeap (oldPage + 4096 * .ofNat k)) 0 (pageCount oldPage newPage)

def shrinkPages (pagePml4 newPage oldPage : UInt64) : MmM Unit :=
  forRange (fun k => vmmUnmap pagePml4 (newPage + 4096 * .ofNat k)) 0 (pageCount newPage oldPage)

def movePages (pagePml4 oldPage newPage : UInt64) : MmM (Option Unit) := do
  if oldPage < newPage then growPages oldPage newPage
  else
    if newPage < oldPage then shrinkPages pagePml4 newPage oldPage
    return none

def scBrk {σ : Type} (pagePml4 newBrk : UInt64) : KernelM σ UInt64 := do
  let s ← get
  if newBrk = 0 then return s.current.heapBreak
  if newBrk < s.current.heapStart then return mapFailed
  let oldPage := s.current.heapBreak &&& pageMask
  let newPage := newBrk + 0xFFF &&& pageMask
  match ← onMachine (movePages pagePml4 oldPage newPage) with
  | some () => return mapFailed
  | none =>
      modify fun s => s.setProc s.currentIdx { s.current with heapBreak := newBrk }
      return newBrk

def field (image : UInt64 → UInt8) (off : UInt64) (w : Nat) : Nat := leNat ((List.range w).map fun i => image (off + .ofNat i))

def headerOk (image : UInt64 → UInt8) : Bool :=
  field image 0 4 == 0x464C457F && image 4 == 2 && field image 16 2 == 2 && field image 18 2 == 62

def eEntry (image : UInt64 → UInt8) : UInt64 := .ofNat (field image 24 8)
def ePhoff (image : UInt64 → UInt8) : UInt64 := .ofNat (field image 32 8)
def ePhnum (image : UInt64 → UInt8) : Nat := field image 56 2

structure Phdr where
  pType : Nat
  pFlags : Nat
  pOffset : UInt64
  pVaddr : UInt64
  pFilesz : UInt64
  pMemsz : UInt64

def phdr (image : UInt64 → UInt8) (i : Nat) : Phdr :=
  let at_ : UInt64 := ePhoff image + 56 * .ofNat i
  let long (off : UInt64) : UInt64 := .ofNat (field image (at_ + off) 8)
  ⟨field image at_ 4, field image (at_ + 4) 4, long 8, long 16, long 32, long 40⟩

section Load
variable {σ : Type} [Fs.BlockStore σ]

def pageAllocZero : MmM UInt64 := do
  let p ← pageAlloc
  if p ≠ 0 then forRange (fun i => setWord p i 0) 0 512
  return p

/-- `page_alloc_zero` and `vmm_map`; `some ()` is the early `return -1`. -/
def mapZeroPage (page flags : UInt64) : MmM (Option Unit) := do
  let phys ← pageAllocZero
  if phys = 0 then return some ()
  vmmMap page phys flags
  return none

/-- `vm_flags` is an `int`, where `PG_NX` has no place. -/
def segmentFlags (p : Phdr) : UInt64 := pgPresent ||| pgUser ||| (if p.pFlags &&& 2 ≠ 0 then pgWrite else 0)

/-- An address that wraps around goes on at 0; every page takes a frame, which bounds the number of iterations. -/
def mapSegment (flags stop : UInt64) : Nat → UInt64 → MmM (Option Unit)
  | 0, _ => failure
  | n+1, page =>
      if page < stop then do
        match ← mapZeroPage page flags with
        | some () => return some ()
        | none => mapSegment flags stop n (page + 0x1000)
      else return none

def copySize (p : Phdr) : UInt64 := if p.pFilesz < p.pMemsz then p.pFilesz else p.pMemsz

def loadSegment (image : UInt64 → UInt8) (p : Phdr) : KernelM σ (Option Unit) := do
  if p.pType ≠ 1 then return none
  match ← onMachine (mapSegment (segmentFlags p) (p.pVaddr + p.pMemsz) (maxPages + 1) (p.pVaddr &&& pageMask)) with
  | some () => return some ()
  | none =>
      forRange (fun j => kernelStore (p.pVaddr + .ofNat j) (image (p.pOffset + .ofNat j))) 0 (copySize p).toNat
      return none

/-- Three pages of stack, a gap, and the page of the arguments. -/
def userPages : List UInt64 := [0x7F000000, 0x7F001000, 0x7F002000, 0x7F004000]

def mapUserPages : List UInt64 → MmM (Option Unit)
  | [] => return none
  | page :: rest => do
      match ← mapZeroPage page heapFlags with
      | some () => return some ()
      | none => mapUserPages rest

/-- The entry point; `none` is the result `-1`. -/
def elf64Load (image : UInt64 → UInt8) : KernelM σ (Option UInt64) := do
  if !headerOk image then return none
  match ← searchM (fun i => loadSegment image (phdr image i)) 0 (ePhnum image) with
  | some () => return none
  | none =>
      match ← onMachine (mapUserPages userPages) with
      | some () => return none
      | none => return some (eEntry image)

/-- The bytes of the file, as `vfs_read` gives them in pieces of 512. `kmalloc` tells for which sizes there is memory; the
result for a larger buffer is not checked. -/
def readFile (kmalloc : UInt32 → Bool) (fd : Int) : Nat → List UInt8 → UInt32 → KernelM σ (List UInt8)
  | 0, _, _ => failure
  | fuel+1, file, cap => do
      match ← onVfs (vfsRead fd 512) with
      | .done n bytes =>
          if n ≤ 0 then return file
          else if cap < .ofNat file.length + .ofNat n.toNat then
            if kmalloc (cap * 2) then readFile kmalloc fd fuel (file ++ bytes) (cap * 2) else failure
          else readFile kmalloc fd fuel (file ++ bytes) cap
      | _ => failure

def imageOf (file : List UInt8) (heap : UInt64 → UInt8) (off : UInt64) : UInt8 :=
  if off.toNat < file.length then file.getD off.toNat 0 else heap off

inductive ExecResult
  | failed
  | entered (entry rsp : UInt64)
deriving DecidableEq

def argsPage : UInt64 := 0x7F004000

/-- At most 255 bytes of the argument string are kept. -/
def argsBuf (args : List UInt8) : List UInt8 := (args.takeWhile (· ≠ 0)).take 255 ++ [0]

/-- The bytes of the file at a path, or `none` if the call fails before it looks at them. `fuel` bounds the number of
pieces the file is read in. -/
def readProgram (kmalloc : UInt32 → Bool) (fuel : Nat) (path : List UInt8) : KernelM σ (Option (List UInt8)) := do
  let fd ← onVfs (vfsOpen path 0)
  if fd < 0 then return none
  if !kmalloc 65536 then
    let _ ← onVfs (vfsClose fd)
    return none
  let file ← readFile kmalloc fd fuel [] 65536
  let _ ← onVfs (vfsClose fd)
  if file.length = 0 then return none
  return some file

/-- `path` and `args` are the strings at `arg1` and `arg2`. -/
def scExec (kmalloc : UInt32 → Bool) (heap : UInt64 → UInt8) (fuel : Nat) (path args : List UInt8) : KernelM σ ExecResult := do
  match ← readProgram kmalloc fuel path with
  | none => return .failed
  | some file =>
      match ← elf64Load (imageOf file heap) with
      | none => return .failed
      | some entry =>
          forRange (fun i => kernelStore (argsPage + .ofNat i) ((argsBuf args).getD i 0)) 0 (argsBuf args).length
          if entry = 0 then failure else return .entered entry 0x7F003000

inductive MemCall
  | brk (newBrk : UInt64)
  | fork
  | exec (path args : List UInt8)

/-- The call has come back with `-1`. -/
inductive MemCall.Fails (pagePml4 : UInt64) (kmalloc : UInt32 → Bool) (heap : UInt64 → UInt8) (fuel : Nat) (s : Kernel σ) :
    MemCall → Kernel σ → Prop
  | brk {newBrk : UInt64} {t : Kernel σ} (run : (scBrk pagePml4 newBrk).run s = some (mapFailed, t)) :
      Fails pagePml4 kmalloc heap fuel s (.brk newBrk) t
  | fork {t : Kernel σ} (run : (procFork pagePml4).run s = some (-1, t)) : Fails pagePml4 kmalloc heap fuel s .fork t
  | exec {path args : List UInt8} {t : Kernel σ}
      (run : (scExec kmalloc heap fuel path args).run s = some (.failed, t)) :
      Fails pagePml4 kmalloc heap fuel s (.exec path args) t

end Load

end SwiftBSD.User
