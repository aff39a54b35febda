import Mathlib.Algebra.Group.Nat.Defs
import SwiftBSD.Mm.Vmm

namespace SwiftBSD.User
open Lib Mm

def vmaMax : Nat := 64

def pgAccessed : UInt64 := 0x20

/-- `stop` is the field `end`. -/
structure Vma where
  start : UInt64
  stop : UInt64
  prot : Int32
  flags : Int32
  fd : Int32
  foff : UInt64
  used : Bool
deriving DecidableEq

/-- `vmas` and `vma_count` of the process. -/
structure Vmas where
  entry : Nat → Vma
  count : Int

def vmaAllocSlot (t : Vmas) : Option Nat := firstFrom (fun i => !(t.entry i).used) 0 vmaMax

def vmaHint (t : Vmas) : UInt64 :=
  let raise (hint : UInt64) (i : Nat) : UInt64 :=
    if (t.entry i).used ∧ hint < (t.entry i).stop then (t.entry i).stop else hint
  (List.range vmaMax).foldl raise 0x40000000 + 0xFFF &&& pageMask

/-- `none` is the result `-1`. -/
def vmaSplit (t : Vmas) (idx : Nat) (splitAddr : UInt64) : Option (Nat × Vmas) :=
  let v := t.entry idx
  if splitAddr ≤ v.start ∨ v.stop ≤ splitAddr then none
  else match vmaAllocSlot t with
    | none => none
    | some right =>
        let r := { v with start := splitAddr, foff := v.foff + (splitAddr - v.start) }
        let l := { v with stop := splitAddr }
        some (right, ⟨Function.update (Function.update t.entry right r) idx l, t.count + 1⟩)

def vmaCompat (a b : Vma) : Bool :=
  a.prot = b.prot ∧ a.flags = b.flags ∧ a.fd = b.fd ∧ (0 ≤ a.fd → b.foff = a.foff + (a.stop - a.start))

/-- The body of the loop of `vma_try_merge`: the entry `b` goes into `a`. -/
def mergeInto (t : Vmas) (a b : Nat) : Option Vmas :=
  let va := t.entry a
  let vb := t.entry b
  if va.stop = vb.start ∧ vmaCompat va vb then
    let entry := Function.update (Function.update t.entry a { va with stop := vb.stop }) b { vb with used := false }
    some ⟨entry, t.count - 1⟩
  else none

def vmaTryMerge (t : Vmas) (idx : Nat) : Vmas :=
  match if 0 < idx ∧ (t.entry (idx - 1)).used then mergeInto t (idx - 1) idx else none with
  | some t' => t'
  | none =>
      match if idx + 1 < vmaMax ∧ (t.entry (idx + 1)).used then mergeInto t idx (idx + 1) else none with
      | some t' => t'
      | none => t

/-- The page at `page` is written to the file `fd` at `foff`, with `vfs_lseek` and `vfs_write`. -/
structure Writeback where
  fd : Int32
  foff : UInt64
  page : UInt64

structure Space where
  vmas : Vmas
  machine : Machine
  written : List Writeback

abbrev UserM := Prog Space

def liftMm {α : Type} (x : MmM α) : UserM α := fun s =>
  (x.run s.machine).map fun (a, machine) => (a, { s with machine })

/-- How often `p` is below `stop`, from `start` on in steps of a page. -/
def pageCount (start stop : UInt64) : Nat := (stop.toNat - start.toNat + 4095) / 4096

/-- The loop never ends if `p` wraps around before it reaches `stop`. -/
def forPages (body : UInt64 → UserM Unit) (start stop : UInt64) : UserM Unit :=
  if start.toNat + 4096 * pageCount start stop < 2 ^ 64 then
    forRange (fun k => body (start + 4096 * .ofNat k)) 0 (pageCount start stop)
  else failure

def writebackPage (pagePml4 : UInt64) (v : Vma) (p : UInt64) : UserM Unit := do
  match ← liftMm (vmmPtLookup pagePml4 p) with
  | none => return
  | some (pt, i) =>
      let pte ← liftMm (word pt i)
      if pte &&& pgDirty ≠ 0 then
        modify fun s => { s with written := s.written ++ [⟨v.fd, v.foff + (p - v.start), p⟩] }
        liftMm (setWord pt i (pte &&& ~~~pgDirty))

def vmaWritebackDirty (pagePml4 start stop : UInt64) (v : Vma) : UserM Unit :=
  if v.fd < 0 ∨ v.flags &&& 1 = 0 then return
  else forPages (writebackPage pagePml4 v) start stop

def vmaUnmapPages (pagePml4 start stop : UInt64) : UserM Unit :=
  forPages (fun p => liftMm (vmmUnmap pagePml4 p)) start stop

def protectedEntry (prot : Int32) (pte : UInt64) : UInt64 :=
  let paddr := pte &&& 0x0000FFFFFFFFF000
  let keep := pte &&& (pgAccessed ||| pgDirty)
  let newFlags := pgPresent ||| pgUser ||| keep
  let newFlags := if prot &&& 2 ≠ 0 then newFlags ||| pgWrite else newFlags
  let newFlags := if prot &&& 4 = 0 then newFlags ||| pgNx else newFlags
  paddr ||| newFlags

def protectPage (pagePml4 : UInt64) (prot : Int32) (p : UInt64) : UserM Unit := do
  match ← liftMm (vmmPtLookup pagePml4 p) with
  | none => return
  | some (pt, i) =>
      let pte ← liftMm (word pt i)
      if pte &&& pgPresent ≠ 0 then liftMm (setWord pt i (protectedEntry prot pte))

def roundUp (length : UInt64) : UInt64 := length + 0xFFF &&& pageMask

def overlaps (v : Vma) (addr stop : UInt64) : Bool := v.used && !(decide (v.stop ≤ addr) || decide (stop ≤ v.start))

/-- The two splits that cut the range out of entry `i`, and the slot of what is cut out. The result of the second split is
not looked at. -/
def cutOut (t : Vmas) (i : Nat) (addr stop : UInt64) : Option (Nat × Vmas) :=
  match if (t.entry i).start < addr then vmaSplit t i addr else some (i, t) with
  | none => none
  | some (i, t) =>
      if stop < (t.entry i).stop then
        match vmaSplit t i stop with
        | some (_, t) => some (i, t)
        | none => some (i, t)
      else some (i, t)

/-- The loop of `SC_MUNMAP` and `SC_MPROTECT`, from slot `i` on: `act` is done in the slot of what is cut out, and the loop
goes on behind that slot. The result tells whether the loop came to its end. -/
def forOverlapping (act : Nat → UserM Unit) (addr stop : UInt64) : Nat → Nat → UserM Bool
  | 0, _ => failure
  | fuel+1, i => do
      if vmaMax ≤ i then return true
      let t := (← get).vmas
      if overlaps (t.entry i) addr stop then
        match cutOut t i addr stop with
        | none => return false
        | some (j, t) =>
            modify fun s => { s with vmas := t }
            act j
            forOverlapping act addr stop fuel (j + 1)
      else forOverlapping act addr stop fuel (i + 1)

def freeSlot (t : Vmas) (i : Nat) : Vmas :=
  ⟨Function.update t.entry i { t.entry i with used := false }, t.count - 1⟩

def unmapSlot (pagePml4 : UInt64) (i : Nat) : UserM Unit := do
  let v := (← get).vmas.entry i
  vmaWritebackDirty pagePml4 v.start v.stop v
  vmaUnmapPages pagePml4 v.start v.stop
  modify fun s => { s with vmas := vmaTryMerge (freeSlot s.vmas i) i }

def setProt (t : Vmas) (i : Nat) (prot : Int32) : Vmas :=
  { t with entry := Function.update t.entry i { t.entry i with prot } }

def protectSlot (pagePml4 : UInt64) (prot : Int32) (i : Nat) : UserM Unit := do
  modify fun s => { s with vmas := setProt s.vmas i prot }
  let v := (← get).vmas.entry i
  forPages (protectPage pagePml4 prot) v.start v.stop
  modify fun s => { s with vmas := vmaTryMerge s.vmas i }

def mapFailed : UInt64 := 0xFFFFFFFFFFFFFFFF

/-- `flags` and `fd` are taken from the two halves of `arg3`, and `offset` from what lies behind it on the stack. -/
def scMmap (addr length arg3 offset : UInt64) : UserM UInt64 := do
  let prot := arg3.toUInt32.toInt32
  let flags := arg3.toUInt32.toInt32
  let fd := (arg3 >>> 32).toUInt32.toInt32
  if length = 0 then return mapFailed
  let length := roundUp length
  let t := (← get).vmas
  match vmaAllocSlot t with
  | none => return mapFailed
  | some vmaIdx =>
      let addr := if addr = 0 then vmaHint t else addr
      let v : Vma := ⟨addr, addr + length, prot, flags, fd, if 0 ≤ fd then offset else 0, true⟩
      modify fun s => { s with vmas := ⟨Function.update t.entry vmaIdx v, t.count + 1⟩ }
      return addr

/-- `fuel` bounds the number of iterations. -/
def scMunmap (pagePml4 : UInt64) (fuel : Nat) (addr length : UInt64) : UserM UInt64 := do
  if length = 0 then return 0
  if ← forOverlapping (unmapSlot pagePml4) addr (addr + roundUp length) fuel 0 then return 0 else return mapFailed

def scMprotect (pagePml4 : UInt64) (fuel : Nat) (addr length : UInt64) (prot : Int32) : UserM UInt64 := do
  if length = 0 then return 0
  if ← forOverlapping (protectSlot pagePml4 prot) addr (addr + roundUp length) fuel 0 then return 0
  else return mapFailed

inductive VmCall
  | mmap (addr length arg3 offset : UInt64)
  | munmap (addr length : UInt64)
  | mprotect (addr length : UInt64) (prot : Int32)

def VmCall.prog (pagePml4 : UInt64) (fuel : Nat) : VmCall → UserM UInt64
  | .mmap addr length arg3 offset => scMmap addr length arg3 offset
  | .munmap addr length => scMunmap pagePml4 fuel addr length
  | .mprotect addr length prot => scMprotect pagePml4 fuel addr length prot

/-- The spaces reached by calls that are all allowed. -/
inductive VmRun (pagePml4 : UInt64) (Allowed : Space → VmCall → Prop) (s : Space) : Space → Prop
  | start : VmRun pagePml4 Allowed s s
  | step {t u : Space} {call : VmCall} {fuel : Nat} {result : UInt64} (before : VmRun pagePml4 Allowed s t)
      (allowed : Allowed t call) (run : (call.prog pagePml4 fuel).run t = some (result, u)) : VmRun pagePml4 Allowed s u

end SwiftBSD.User
