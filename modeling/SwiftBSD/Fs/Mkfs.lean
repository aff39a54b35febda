import SwiftBSD.Fs.Swiftfs2

namespace SwiftBSD.Fs
open Lib

/-- The layout variables of `main`. -/
structure Geometry where
  numBlocks : Nat
  nrGroups : Nat
  gdBlocks : Nat
  journalBlock : Nat

namespace Geometry

def ofMb (sizeMb : Nat) : Geometry :=
  let sizeMb := if sizeMb < 1 then 1 else sizeMb
  let numBlocks := sizeMb * 1048576 % 2 ^ 64 / 4096
  let nrGroups := (numBlocks + 32767) / 32768 % 2 ^ 32
  ⟨numBlocks, nrGroups, (nrGroups + 127) / 128, (numBlocks + 2 ^ 64 - 8192) % 2 ^ 64⟩

def groupStart (g : Nat) : Nat := g * 32768 % 2 ^ 32

def bitmapBlock (G : Geometry) (g : Nat) : Nat := if g = 0 then 1 + G.gdBlocks else groupStart g

/-- The inode table of a group takes 128 blocks. -/
def usedBlocks (G : Geometry) (g : Nat) : Nat := if g = 0 then 1 + G.gdBlocks + 1 + 128 else 1 + 128

def isLast (G : Geometry) (g : Nat) : Bool := g + 1 == G.nrGroups

def gd (G : Geometry) (g : Nat) : Gd :=
  if g < G.nrGroups then
    { blockBitmapBlock := .ofNat (G.bitmapBlock g)
      inodeTableBlock := .ofNat (G.bitmapBlock g + 1)
      freeBlocksCount := 32768 - .ofNat (G.usedBlocks g) - (if G.isLast g then 8192 else 0)
      freeInodesCount := 4096
      pad := .zero }
  else ⟨0, 0, 0, 0, .zero⟩

/-- `sb.free_blocks` after the first `n` groups. -/
def freeBlocks (G : Geometry) : Nat → UInt64
  | 0 => .ofNat G.numBlocks
  | g+1 => G.freeBlocks g - .ofNat (G.usedBlocks g) - (if G.isLast g then 8192 else 0)

def superblock (G : Geometry) : Super where
  magic := magic
  blockSize := 4096
  numBlocks := .ofNat G.numBlocks
  inodeCount := .ofNat (G.nrGroups * 4096)
  freeBlocks := G.freeBlocks G.nrGroups
  freeInodes := .ofNat (G.nrGroups * 4096) - 1
  blocksPerGroup := 32768
  inodesPerGroup := 4096
  groupDescCount := .ofNat G.gdBlocks
  inodeSize := 128
  journalBlock := .ofNat G.journalBlock
  journalSize := 8192
  journalLast := 0
  uuid := .ofList [0x73, 0x77, 0x69, 0x66, 0x74, 0x66, 0x73, 0x32, 0x2d, 0x76, 0x32, 0x2d, 0x74, 0x65, 0x73, 0x74]
  volumeName := .ofList [0x72, 0x6f, 0x6f, 0x74]
  pad := .zero

end Geometry

def bitmapSetRange (start : Nat) : Nat → Block → Option Block
  | 0, bm => some bm
  | n+1, bm => do
      let bm ← bitmapSetRange start n bm
      let bit := (start + n) % 2 ^ 32
      if bit / 8 < 4096 then some (bitSet bm bit) else none

namespace Geometry

def bitmap (G : Geometry) (g : Nat) : Option Block := do
  let bm ← bitmapSetRange 0 (G.usedBlocks g) .zero
  if G.isLast g then
    bitmapSetRange ((G.journalBlock + (2 ^ 32 - groupStart g)) % 2 ^ 32) 8192 bm
  else some bm

def writeBitmaps (G : Geometry) : Nat → Disk → Option Disk
  | 0, img => some img
  | g+1, img => do
      let img ← G.writeBitmaps g img
      return img.set (G.bitmapBlock g) (← G.bitmap g)

def writeGds (G : Geometry) : Nat → Disk → Disk
  | 0, img => img
  | n+1, img => (G.writeGds n img).set (1 + n) (Gd.toBlock G.gd n)

/-- The group and the index of the first clear bit. The stream is open for writing only, so `fread` fails and `bm` holds what the loop
before has left there, the bitmap of the last group. -/
def findFree (G : Geometry) (bm : Block) : Option (Nat × Nat) :=
  firstSome (fun g => (firstFrom (fun i => !bitTest bm i) 0 32768).map (g, ·)) 0 G.nrGroups

end Geometry

def rootInode (dataBlock : Nat) : Inode :=
  { Inode.zero with
    mode := sIfdir ||| 0o755
    size := 4096
    blockCount := 1
    direct := Function.update Inode.zero.direct 0 (.ofNat dataBlock) }

def rootDirBlock : Block :=
  let dot := Dirent.setRecLen 0 12 (Dirent.fill 0 1 fileTypeDir [0x2e] .zero)
  let dotdot := Dirent.setRecLen 12 12 (Dirent.fill 12 1 fileTypeDir [0x2e, 0x2e] dot)
  Dirent.setRecLen 24 (4096 - 12 - 12) (Dirent.setInode 24 0 dotdot)

/-- The root directory: the bitmap with its block, its inode in slot 1 of the first inode-table block, its entries, and
the descriptor of group 0 with the inode taken off. -/
def Geometry.writeRoot (G : Geometry) (g i : Nat) (bm : Block) (img : Disk) : Disk :=
  let dataBlock := (Geometry.groupStart g + i) % 2 ^ 32
  let img := img.set (G.bitmapBlock g) (bitSet bm i)
  let table := (G.gd 0).inodeTableBlock.toNat
  let img := img.set table ((img.block table).write 128 (rootInode dataBlock).encode)
  let img := img.set dataBlock rootDirBlock
  img.set 1 ((img.block 1).write 0 ({ G.gd 0 with freeInodesCount := (G.gd 0).freeInodesCount - 1 }).encode)

def mkfs (sizeMb : Nat) : Option Disk := do
  let G := Geometry.ofMb sizeMb
  -- `g * SWIFTFS2_BLOCKS_PER_GROUP` overflows an `int` from group 65536 on.
  if 65536 < G.nrGroups then none
  let img ← G.writeBitmaps G.nrGroups ⟨fun _ => .zero⟩
  let img := G.writeGds G.gdBlocks (img.set 0 G.superblock.toBlock)
  let bm ← G.bitmap (G.nrGroups - 1)
  let (g, i) ← G.findFree bm
  if (Geometry.groupStart g + i) % 2 ^ 32 = 0 then none
  else some (G.writeRoot g i bm img)

/-- The kernel's file-system state before the first mount. -/
def FsState.boot {σ : Type} (dev : σ) (heap : Nat → Bool) : FsState σ where
  dev := dev
  sb := .decode []
  mounted := false
  nrGroups := 0
  gd := fun _ => .decode []
  bitmaps := fun _ => none
  currGroup := 0
  fds := fun _ => .zero
  heap := heap

end SwiftBSD.Fs
