import SwiftBSD.Fs.Store
import SwiftBSD.Lib.Prog

namespace SwiftBSD.Fs
open Lib

structure Fd where
  inode : Nat
  pos : Nat
  flags : UInt32
  dirty : Bool

def Fd.zero : Fd := ⟨0, 0, 0, false⟩

structure FsState (σ : Type) where
  dev : σ
  sb : Super
  mounted : Bool
  nrGroups : Nat
  gd : Nat → Gd
  bitmaps : Nat → Option Block
  currGroup : Nat
  fds : Nat → Fd
  heap : Nat → Bool

abbrev FsM (σ : Type) := Prog (FsState σ)

section Operations
variable {σ : Type} [BlockStore σ]

def cacheGet (block : Nat) : FsM σ (BlockStore.Slot σ) := do
  let s ← get
  set { s with dev := (BlockStore.cacheGet block s.dev).2 }
  return (BlockStore.cacheGet block s.dev).1

def load (slot : BlockStore.Slot σ) : FsM σ Block := do
  match BlockStore.load slot (← get).dev with
  | some b => return b
  | none => failure

def put (slot : BlockStore.Slot σ) (block : Nat) (f : Block → Block) : FsM σ Unit := do
  let s ← get
  match BlockStore.put slot block f s.dev with
  | some dev => set { s with dev }
  | none => failure

def cacheMarkDirty (block : Nat) : FsM σ Unit :=
  modify fun s => { s with dev := BlockStore.cacheMarkDirty block s.dev }

def readBlock (block : Nat) : FsM σ Block := do
  match BlockStore.readBlock block (← get).dev with
  | some b => return b
  | none => failure

def writeBlock (block : Nat) (v : Block) : FsM σ Unit :=
  modify fun s => { s with dev := BlockStore.writeBlock block v s.dev }

/-- The pool has `KHEAP_SIZE` bytes, 24 of them the header of its first block. -/
def kmalloc (size : Nat) : FsM σ Bool := do
  let s ← get
  set { s with heap := fun k => s.heap (k+1) }
  return s.heap 0 && size + 24 ≤ 1048576

def bitmapForGroup (group : Nat) : FsM σ (Option Block) := do
  let s ← get
  if s.nrGroups ≤ group then return none
  match s.bitmaps group with
  | some bm => return some bm
  | none =>
      if ← kmalloc 4096 then
        let bm ← readBlock (s.gd group).blockBitmapBlock.toNat
        modify fun s => { s with bitmaps := Function.update s.bitmaps group (some bm) }
        return some bm
      else return none

def takeBlock (g b : Nat) (bm : Block) (s : FsState σ) : FsState σ :=
  { s with
    bitmaps := Function.update s.bitmaps g (some (bitSet bm b))
    gd := Function.update s.gd g { s.gd g with freeBlocksCount := (s.gd g).freeBlocksCount - 1 }
    sb := { s.sb with freeBlocks := s.sb.freeBlocks - 1 }
    currGroup := g }

def blockAllocIn (g : Nat) : FsM σ (Option UInt32) := do
  if ((← get).gd g).freeBlocksCount = 0 then return none
  match ← bitmapForGroup g with
  | none => return none
  | some bm =>
      match firstFrom (fun b => !bitTest bm b) 0 32768 with
      | none => return none
      | some b =>
          modify (takeBlock g b bm)
          cacheMarkDirty ((← get).gd g).blockBitmapBlock.toNat
          return some (.ofNat (g * 32768 + b))

def blockAlloc : FsM σ UInt32 := do
  let s ← get
  let found ← searchM (fun gi => blockAllocIn ((s.currGroup + gi) % s.nrGroups)) 0 s.nrGroups
  return found.getD 0

def giveBlock (g b : Nat) (bm : Block) (s : FsState σ) : FsState σ :=
  { s with
    bitmaps := Function.update s.bitmaps g (some (bitClear bm b))
    gd := Function.update s.gd g { s.gd g with freeBlocksCount := (s.gd g).freeBlocksCount + 1 }
    sb := { s.sb with freeBlocks := s.sb.freeBlocks + 1 } }

def blockFree (block : UInt32) : FsM σ Unit := do
  if block = 0 then return
  let g := block.toNat / 32768
  let b := block.toNat % 32768
  match ← bitmapForGroup g with
  | none => return
  | some bm =>
      if bitTest bm b then
        modify (giveBlock g b bm)
        cacheMarkDirty ((← get).gd g).blockBitmapBlock.toNat
      else return

/-- The descriptor array lives in `group_desc_count` blocks of 128 descriptors, while mounted. -/
def inodeBlockAndOffset (ino : Nat) : FsM σ (Nat × Nat) := do
  let s ← get
  let g := ino / 4096
  let slot := ino % 4096
  if s.mounted && g < 128 * s.sb.groupDescCount.toNat then
    return (((s.gd g).inodeTableBlock + .ofNat (slot / 32)).toNat, slot % 32 * 128)
  else failure

def inodeRead (ino : Nat) : FsM σ Inode := do
  let (block, offset) ← inodeBlockAndOffset ino
  let data ← cacheGet block
  return .decode ((← load data).read offset 106)

def inodeWrite (ino : Nat) (inode : Inode) : FsM σ Unit := do
  let (block, offset) ← inodeBlockAndOffset ino
  let data ← cacheGet block
  put data block fun b => b.write offset inode.encode

def takeInode (gi : Nat) (s : FsState σ) : FsState σ :=
  { s with
    gd := Function.update s.gd gi { s.gd gi with freeInodesCount := (s.gd gi).freeInodesCount - 1 }
    sb := { s.sb with freeInodes := s.sb.freeInodes - 1 } }

def inodeTake (mode : UInt16) (gi ino : Nat) : FsM σ (Option Nat) := do
  if ino = 0 then return none
  let x ← inodeRead ino
  if x.mode = 0 then
    inodeWrite ino { Inode.zero with mode }
    modify (takeInode gi)
    return some ino
  else return none

def inodeAllocIn (mode : UInt16) (gi : Nat) : FsM σ (Option Nat) := do
  if ((← get).gd gi).freeInodesCount = 0 then return none
  match ← bitmapForGroup gi with
  | none => return none
  | some _ => searchM (inodeTake mode gi) (gi * 4096) 4096

def inodeAlloc (mode : UInt16) : FsM σ Nat := do
  let found ← searchM (inodeAllocIn mode) 0 (← get).nrGroups
  return found.getD 0

def giveInode (g : Nat) (s : FsState σ) : FsState σ :=
  { s with
    gd := Function.update s.gd g { s.gd g with freeInodesCount := (s.gd g).freeInodesCount + 1 }
    sb := { s.sb with freeInodes := s.sb.freeInodes + 1 } }

def inodeFree (ino : Nat) : FsM σ Unit := do
  if ino = 0 then return
  inodeWrite ino .zero
  modify (giveInode (ino / 4096))

def bmapEntry (inode : Inode) (l : Nat) (create : Bool) : FsM σ UInt32 := do
  let tbl ← cacheGet inode.indirect.toNat
  let e := (← load tbl).field (4 * l) 4
  if e = 0 && create then
    let b ← blockAlloc
    put tbl inode.indirect.toNat fun t => t.write (4 * l) (leBytes 4 b.toNat)
    return b
  else return .ofNat e

/-- The block of `lblock`, and the inode with the pointers that were filled in. -/
def bmapRead (inode : Inode) (lblock : Nat) (create : Bool) : FsM σ (UInt32 × Inode) := do
  if h : lblock < 12 then
    if inode.direct ⟨lblock, h⟩ = 0 && create then
      let b ← blockAlloc
      return (b, inode.setDirect ⟨lblock, h⟩ b)
    else return (inode.direct ⟨lblock, h⟩, inode)
  else if lblock - 12 < 1024 then
    if inode.indirect = 0 then
      if create then
        let ind ← blockAlloc
        if ind = 0 then return (0, inode)
        let z ← cacheGet ind.toNat
        put z ind.toNat fun _ => .zero
        return (← bmapEntry { inode with indirect := ind } (lblock - 12) create, { inode with indirect := ind })
      else return (0, inode)
    else return (← bmapEntry inode (lblock - 12) create, inode)
  else return (0, inode)

def slash : UInt8 := 0x2f

/-- The next component, cut at 254 bytes, and what follows it. -/
def pathNext (path : List UInt8) : Option (List UInt8 × List UInt8) :=
  match path.dropWhile (· == slash) with
  | [] => none
  | c :: p =>
      let component := ((c :: p).takeWhile (· != slash)).take 254
      some (component, (c :: p).drop component.length)

def pathSplit : Nat → List UInt8 → List (List UInt8)
  | 0, _ => []
  | n+1, path => match pathNext path with
      | none => []
      | some (component, rest) => component :: pathSplit n rest

/-- The components `path_walk` goes through: every call of `path_next` consumes a byte. -/
def pathComponents (path : List UInt8) : List (List UInt8) := pathSplit path.length path

/-- `strncmp(b + pos, name, name.length) == 0`. -/
def strncmpEq (b : Block) : Nat → List UInt8 → Option Bool
  | _, [] => some true
  | pos, c :: cs =>
      if 4096 ≤ pos then none
      else if b.get pos != c then some false
      else if c = 0 then some true
      else strncmpEq b (pos + 1) cs

/-- Does the record at `pos` carry this name? -/
def direntIs (b : Block) (pos : Nat) (name : List UInt8) : Option Bool :=
  if Dirent.nameLen b pos = name.length % 256 then strncmpEq b (pos + 8) name else some false

/-- The scan of one directory block for a name. -/
def lookupFrom (b : Block) (name : List UInt8) : Nat → Nat → Option (Option Nat)
  | 0, _ => some none
  | n+1, pos =>
      if 4096 ≤ pos then some none
      else if 4096 < pos + 8 then none
      else if Dirent.inode b pos = 0 then some none
      else if Dirent.recLen b pos = 0 then some none
      else do
        if ← direntIs b pos name then some (some (Dirent.inode b pos))
        else lookupFrom b name n (pos + Dirent.recLen b pos)

def dirLookup (inode : Inode) (name : List UInt8) : FsM σ (Option Nat) := do
  let found ← searchM (fun bi => do
    let (pblock, _) ← bmapRead inode bi false
    if pblock = 0 then return some none
    let b ← load (← cacheGet pblock.toNat)
    match lookupFrom b name 4096 0 with
    | none => failure
    | some none => return none
    | some (some ino) => return some (some ino)) 0 1037
  return found.getD none

def walkFrom : Nat → List (List UInt8) → FsM σ (Option Nat)
  | ino, [] => return some ino
  | ino, component :: rest => do
      let x ← inodeRead ino
      if !x.isDir then return none
      match ← dirLookup x component with
      | none => return none
      | some ino => walkFrom ino rest

def pathWalk (path : List UInt8) : FsM σ (Option Nat) := walkFrom 1 (pathComponents path)

/-- The scan of `dir_add_entry` for a free record of at least `reclen` bytes. -/
def slotFrom (b : Block) (reclen : Nat) : Nat → Nat → Option (Option Nat)
  | 0, _ => some none
  | n+1, pos =>
      if 4096 ≤ pos then some none
      else if 4096 < pos + 8 then none
      else if Dirent.inode b pos = 0 ∧ reclen ≤ Dirent.recLen b pos then some (some pos)
      else if Dirent.recLen b pos = 0 then some (some pos)
      else slotFrom b reclen n (pos + Dirent.recLen b pos)

/-- Write a record over the free one at `pos`, and split off the rest if it has room for a header. -/
def useSlot (pos reclen ino : Nat) (fileType : UInt8) (name : List UInt8) (b : Block) : Block :=
  let remaining := Dirent.recLen b pos
  let b := Dirent.fill pos ino fileType name b
  if reclen + 8 ≤ remaining then
    Dirent.setRecLen pos reclen
      (Dirent.setRecLen (pos + reclen) (remaining - reclen) (Dirent.setInode (pos + reclen) 0 b))
  else Dirent.setRecLen pos remaining b

/-- Does `useSlot` stay inside the block? -/
def slotFits (b : Block) (pos reclen nlen : Nat) : Bool :=
  pos + 8 + nlen ≤ 4096 && (Dirent.recLen b pos < reclen + 8 || pos + reclen + 8 ≤ 4096)

/-- The first record of a new directory block; the rest is one free record. -/
def firstRecord (reclen ino : Nat) (fileType : UInt8) (name : List UInt8) (b : Block) : Block :=
  let b := Dirent.fill 0 ino fileType name b
  if 8 ≤ 4096 - reclen then
    Dirent.setRecLen reclen (4096 - reclen) (Dirent.setInode reclen 0 (Dirent.setRecLen 0 reclen b))
  else Dirent.setRecLen 0 4096 b

/-- Link the new block `pblock` as block `bi` of the directory. A block after the first indirect one is
not linked at all. -/
def dirLink (dirIn : Inode) (bi : Nat) (pblock : UInt32) : FsM σ (Option Inode) := do
  if h : bi < 12 then return some (dirIn.setDirect ⟨bi, h⟩ pblock)
  else if bi = 12 then
    let link (ind : UInt32) : FsM σ (Option Inode) := do
      let tbl ← cacheGet ind.toNat
      put tbl ind.toNat fun t => t.write (4 * (bi - 12)) (leBytes 4 pblock.toNat)
      return some { dirIn with indirect := ind }
    if dirIn.indirect = 0 then
      let ind ← blockAlloc
      if ind = 0 then return none
      let z ← cacheGet ind.toNat
      put z ind.toNat fun _ => .zero
      link ind
    else link dirIn.indirect
  else return some dirIn

def dirAddBlock (dirIno : Nat) (dirIn : Inode) (bi reclen childIno : Nat) (fileType : UInt8)
    (name : List UInt8) : FsM σ Int := do
  let pblock ← blockAlloc
  if pblock = 0 then return -1
  let data ← cacheGet pblock.toNat
  put data pblock.toNat fun _ => .zero
  match ← dirLink dirIn bi pblock with
  | none => return -1
  | some x =>
      inodeWrite dirIno { x with size := x.size + 4096, blockCount := x.blockCount + 1 }
      put data pblock.toNat (firstRecord reclen childIno fileType name)
      return 0

def dirAddIn (pblock : UInt32) (reclen childIno : Nat) (fileType : UInt8) (name : List UInt8) :
    FsM σ (Option Int) := do
  let data ← cacheGet pblock.toNat
  let b ← load data
  match slotFrom b reclen 4096 0 with
  | none => failure
  | some none => return none
  | some (some pos) =>
      if slotFits b pos reclen name.length then
        put data pblock.toNat (useSlot pos reclen childIno fileType name)
        return some 0
      else failure

/-- `name` is the copy in a 255-byte buffer: a longer one has no terminator for `strlen` to find. -/
def dirAddEntry (dirIno : Nat) (name : List UInt8) (childIno : Nat) (fileType : UInt8) : FsM σ Int := do
  let dirIn ← inodeRead dirIno
  if 254 < name.length then failure
  let reclen := (8 + name.length + 3) / 4 * 4
  let done ← searchM (fun bi => do
    let (pblock, _) ← bmapRead dirIn bi false
    if pblock = 0 then return some (← dirAddBlock dirIno dirIn bi reclen childIno fileType name)
    dirAddIn pblock reclen childIno fileType name) 0 1037
  match done with
  | some r => return r
  | none => failure

def lastSlash : List UInt8 → Option Nat
  | [] => none
  | c :: cs => match lastSlash cs with
      | some i => some (i+1)
      | none => if c = slash then some 0 else none

/-- The parent path, if the path has a slash, and the last name: `parent_path[510]` keeps 509 bytes of
the path, the name buffer 255. -/
def splitParent (path : List UInt8) : Option (List UInt8) × List UInt8 :=
  match lastSlash (path.take 509) with
  | some i => (some ((path.take 509).take i), ((path.take 509).drop (i+1)).take 255)
  | none => (none, path.take 255)

def parentWalk (path : List UInt8) : FsM σ (Option Nat) :=
  match (splitParent path).1 with
  | some parent => pathWalk parent
  | none => return some 1

def fdAlloc : FsM σ (Option Nat) := do
  let s ← get
  return firstFrom (fun i => (s.fds i).inode == 0) 2 62

/-- Free the blocks an inode points to and clear the pointers; the entries of the indirect block are not
looked at. -/
def freeBlocks (x : Inode) : FsM σ Inode := do
  let x ← (List.finRange 12).foldlM (fun x k => do
    if x.direct k ≠ 0 then
      blockFree (x.direct k)
      return x.setDirect k 0
    else return x) x
  if x.indirect ≠ 0 then blockFree x.indirect
  if x.doubleIndirect ≠ 0 then blockFree x.doubleIndirect
  return { x with indirect := 0, doubleIndirect := 0 }

def openCreate (path : List UInt8) : FsM σ (Option Nat) := do
  match ← parentWalk path with
  | none => return none
  | some parentIno =>
      let ino ← inodeAlloc (sIfreg ||| 0o644)
      if ino = 0 then return none
      if (← dirAddEntry parentIno (splitParent path).2 ino fileTypeReg) < 0 then
        inodeFree ino
        return none
      return some ino

def openResolve (path : List UInt8) (flags : UInt32) : FsM σ (Option Nat) := do
  match ← pathWalk path with
  | some ino => return some ino
  | none => if flags &&& oCreat = 0 then return none else openCreate path

def openTrunc (ino : Nat) (x : Inode) : FsM σ Unit := do
  let x ← freeBlocks x
  inodeWrite ino { x with size := 0, blockCount := 0 }

def openFd (ino : Nat) (flags : UInt32) : FsM σ Int := do
  match ← fdAlloc with
  | none => return -1
  | some fd =>
      modify fun s => { s with fds := Function.update s.fds fd ⟨ino, 0, flags, false⟩ }
      return fd

def swiftfs2Open (path : List UInt8) (flags : UInt32) : FsM σ Int := do
  if !(← get).mounted then return -1
  match ← openResolve path flags with
  | none => return -1
  | some ino =>
      let x ← inodeRead ino
      if flags &&& (oWronly ||| oRdwr) ≠ 0 ∧ x.mode &&& sIwusr = 0 then return -1
      if flags &&& oTrunc ≠ 0 then openTrunc ino x
      openFd ino flags

def fdOpen (fds : Nat → Fd) (fd : Int) : Bool := 0 ≤ fd && fd < 64 && (fds fd.toNat).inode != 0

def setPos (fd pos : Nat) (s : FsState σ) : FsState σ :=
  { s with fds := Function.update s.fds fd { s.fds fd with pos } }

def readLoop (x : Inode) (pos toRead : Nat) : Nat → Nat → List UInt8 → FsM σ (List UInt8)
  | 0, _, out => return out
  | n+1, done, out => do
      if toRead ≤ done then return out
      let cur := (pos + done) % 2 ^ 32
      let (pblock, _) ← bmapRead x (cur / 4096) false
      if pblock = 0 then return out
      let data ← load (← cacheGet pblock.toNat)
      let chunk := min (4096 - cur % 4096) (toRead - done)
      readLoop x pos toRead n (done + chunk) (out ++ data.read (cur % 4096) chunk)

/-- The return value and the bytes copied to the buffer. -/
def swiftfs2Read (fd : Int) (size : Nat) : FsM σ (Int × List UInt8) := do
  let s ← get
  if !fdOpen s.fds fd then return (-1, [])
  let f := s.fds fd.toNat
  if f.flags = oWronly then return (-1, [])
  let x ← inodeRead f.inode
  if x.size.toNat ≤ f.pos then return (0, [])
  let toRead := if x.size.toNat < (f.pos + size) % 2 ^ 32 then (x.size.toNat - f.pos) % 2 ^ 32 else size
  let out ← readLoop x f.pos toRead toRead 0 []
  modify (setPos fd.toNat ((f.pos + out.length) % 2 ^ 32))
  return (out.length, out)

def writeLoop (pos : Nat) (buf : List UInt8) : Nat → Nat → Inode → FsM σ (Nat × Inode)
  | 0, done, x => return (done, x)
  | n+1, done, x => do
      if buf.length ≤ done then return (done, x)
      let cur := (pos + done) % 2 ^ 32
      let (pblock, x) ← bmapRead x (cur / 4096) true
      if pblock = 0 then return (done, x)
      let data ← cacheGet pblock.toNat
      let chunk := min (4096 - cur % 4096) (buf.length - done)
      put data pblock.toNat fun b => b.write (cur % 4096) ((buf.drop done).take chunk)
      writeLoop pos buf n (done + chunk) x

/-- The inode `swiftfs2_write` stores: grown to the end of the write. -/
def Inode.grow (x : Inode) (pos : Nat) : Inode :=
  let size : UInt64 := if x.size.toNat < pos then .ofNat pos else x.size
  { x with size, blockCount := ((size + 4095) / 4096).toUInt32 }

def swiftfs2Write (fd : Int) (buf : List UInt8) : FsM σ Int := do
  let s ← get
  if !fdOpen s.fds fd then return -1
  let f := s.fds fd.toNat
  if f.flags = oRdonly then return -1
  let x ← inodeRead f.inode
  let (done, x) ← writeLoop f.pos buf buf.length 0 x
  let pos := (f.pos + done) % 2 ^ 32
  inodeWrite f.inode (x.grow pos)
  modify (setPos fd.toNat pos)
  return done

def swiftfs2Close (fd : Int) : FsM σ Int := do
  let s ← get
  if !fdOpen s.fds fd then return -1
  if (s.fds fd.toNat).dirty then
    let x ← inodeRead (s.fds fd.toNat).inode
    inodeWrite (s.fds fd.toNat).inode x
  modify fun s => { s with fds := Function.update s.fds fd.toNat .zero }
  return 0

def mkdirIn (parentIno : Nat) (name : List UInt8) (mode : UInt16) : FsM σ Int := do
  let ino ← inodeAlloc (sIfdir ||| (mode &&& 0o777))
  if ino = 0 then return -1
  if (← dirAddEntry ino [0x2e] ino fileTypeDir) < 0 then
    inodeFree ino
    return -1
  if (← dirAddEntry ino [0x2e, 0x2e] parentIno fileTypeDir) < 0 then
    inodeFree ino
    return -1
  if (← dirAddEntry parentIno name ino fileTypeDir) < 0 then
    inodeFree ino
    return -1
  return 0

def swiftfs2Mkdir (path : List UInt8) (mode : UInt16) : FsM σ Int := do
  if !(← get).mounted then return -1
  match ← parentWalk path with
  | none => return -1
  | some parentIno => mkdirIn parentIno (splitParent path).2 mode

/-- The scan of `swiftfs2_unlink`: it has no check for a zero `rec_len`, on which it would not move. -/
def removeFrom (b : Block) (name : List UInt8) : Nat → Nat → Option (Option Nat)
  | 0, _ => some none
  | n+1, pos =>
      if 4096 ≤ pos then some none
      else if 4096 < pos + 8 then none
      else if Dirent.inode b pos = 0 then some none
      else do
        if ← direntIs b pos name then some (some pos)
        else if Dirent.recLen b pos = 0 then none
        else removeFrom b name n (pos + Dirent.recLen b pos)

def removeEntry (parentIn : Inode) (name : List UInt8) : FsM σ Bool := do
  if 254 < name.length then failure
  let found ← searchM (fun bi => do
    let (pblock, _) ← bmapRead parentIn bi false
    if pblock = 0 then return some false
    let data ← cacheGet pblock.toNat
    match removeFrom (← load data) name 4096 0 with
    | none => failure
    | some none => return none
    | some (some pos) =>
        put data pblock.toNat (Dirent.setInode pos 0)
        return some true) 0 1037
  return found.getD false

def swiftfs2Unlink (path : List UInt8) : FsM σ Int := do
  match ← parentWalk path with
  | none => return -1
  | some parentIno =>
      match ← pathWalk path with
      | none => return -1
      | some targetIno =>
          let _ ← inodeRead targetIno
          let parentIn ← inodeRead parentIno
          if ← removeEntry parentIn (splitParent path).2 then
            let x ← inodeRead targetIno
            let _ ← freeBlocks x
            inodeFree targetIno
            return 0
          else return -1

structure LsEntry where
  name : List UInt8
  mode : UInt16
  size : UInt64
deriving DecidableEq

/-- The listing of one block; the record is read again after the child's inode. -/
def lsBlock (data : BlockStore.Slot σ) : Nat → Nat → List LsEntry → FsM σ (List LsEntry)
  | 0, _, out => return out
  | n+1, pos, out => do
      if 4096 ≤ pos then return out
      if 4096 < pos + 8 then failure
      let b ← load data
      if Dirent.inode b pos = 0 then return out
      if Dirent.recLen b pos = 0 then return out
      if Dirent.nameLen b pos = 255 ∨ 4096 < pos + 8 + Dirent.nameLen b pos then failure
      let child ← inodeRead (Dirent.inode b pos)
      let b' ← load data
      lsBlock data n (pos + Dirent.recLen b' pos) (out ++ [⟨Dirent.name b pos, child.mode, child.size⟩])

def lsBlocks (x : Inode) : Nat → Nat → List LsEntry → FsM σ (List LsEntry)
  | 0, _, out => return out
  | n+1, bi, out => do
      let (pblock, _) ← bmapRead x bi false
      if pblock = 0 then return out
      let data ← cacheGet pblock.toNat
      lsBlocks x n (bi + 1) (← lsBlock data 4097 0 out)

/-- The return value and the callback's arguments in order. -/
def swiftfs2Ls (path : List UInt8) : FsM σ (Int × List LsEntry) := do
  if !(← get).mounted then return (-1, [])
  match ← pathWalk path with
  | none => return (-1, [])
  | some ino =>
      let x ← inodeRead ino
      if !x.isDir then return (-1, [])
      return (0, ← lsBlocks x 1037 0 [])

def readBlocks : Nat → FsM σ (Nat → Block)
  | 0 => return fun _ => .zero
  | n+1 => do
      let raw ← readBlocks n
      let b ← readBlock (1 + n)
      return Function.update raw n b

/-- `g_nr_groups` and `desc_blocks`, both `int`. -/
def Super.nrGroups (sb : Super) : Int := Int.bmod ((sb.numBlocks.toNat + 32767) % 2 ^ 64 / 32768 : Nat) (2 ^ 32)
def Super.descBlocks (sb : Super) : Int := (Int.bmod (sb.nrGroups * 32) (2 ^ 32) + 4095).tdiv 4096

def loadGroupDescriptors : FsM σ Bool := do
  let s ← get
  set { s with nrGroups := s.sb.nrGroups.toNat }
  if s.sb.descBlocks ≠ Int.bmod s.sb.groupDescCount.toNat (2 ^ 32) then return false
  if !(← kmalloc (s.sb.descBlocks.toNat * 4096)) then return false
  let raw ← readBlocks s.sb.descBlocks.toNat
  modify fun s => { s with gd := Gd.ofBlocks raw }
  if !(← kmalloc (8 * s.sb.nrGroups.toNat)) then return false
  modify fun s => { s with bitmaps := fun _ => none }
  return true

def swiftfs2Mount : FsM σ Int := do
  if (← get).mounted then return -1
  modify fun s => { s with
    dev := BlockStore.cacheRewind (BlockStore.cacheClear s.dev)
    fds := fun _ => .zero }
  let sb := Super.ofBlock (← readBlock 0)
  modify fun s => { s with sb }
  if sb.magic ≠ magic then return -1
  if sb.blockSize ≠ 4096 then return -1
  if !(← loadGroupDescriptors) then return -1
  modify fun s => { s with currGroup := 0, mounted := true }
  return 0

def writeDescriptors : Nat → FsM σ Unit
  | 0 => return
  | n+1 => do
      writeDescriptors n
      let s ← get
      writeBlock (1 + n) (Gd.toBlock s.gd n)

def bitmapSync (group : Nat) : FsM σ Unit := do
  let s ← get
  match s.bitmaps group with
  | none => return
  | some bm => writeBlock (s.gd group).blockBitmapBlock.toNat bm

def syncBitmaps : Nat → FsM σ Unit
  | 0 => return
  | n+1 => do
      syncBitmaps n
      bitmapSync n

/-- The flags `dirty` of the open descriptors are cleared; nothing sets them. -/
def cleanFds (fds : Nat → Fd) : Nat → Fd :=
  fun i => if i < 64 ∧ (fds i).inode ≠ 0 then { fds i with dirty := false } else fds i

def swiftfs2Sync : FsM σ Int := do
  if !(← get).mounted then return -1
  modify fun s => { s with fds := cleanFds s.fds, dev := BlockStore.cacheFlushAll s.dev }
  let s ← get
  writeBlock 0 s.sb.toBlock
  writeDescriptors s.sb.groupDescCount.toNat
  syncBitmaps s.nrGroups
  return 0

def swiftfs2Umount : FsM σ Int := do
  if !(← get).mounted then return -1
  let _ ← swiftfs2Sync
  modify fun s => { s with dev := BlockStore.cacheClear s.dev, mounted := false }
  return 0

end Operations

end SwiftBSD.Fs
