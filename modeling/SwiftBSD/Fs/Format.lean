import SwiftBSD.Lib.Bytes

namespace SwiftBSD.Fs
open Lib

abbrev Block := Bytes 4096

def sIfdir : UInt16 := 0o40000
def sIfreg : UInt16 := 0o100000
def sIwusr : UInt16 := 0o200

def oRdonly : UInt32 := 0
def oWronly : UInt32 := 1
def oRdwr : UInt32 := 2
def oCreat : UInt32 := 0x100
def oTrunc : UInt32 := 0x200

def fileTypeReg : UInt8 := 1
def fileTypeDir : UInt8 := 2

def magic : UInt64 := 0x3253465446495753

structure Super where
  magic : UInt64
  blockSize : UInt64
  numBlocks : UInt64
  inodeCount : UInt64
  freeBlocks : UInt64
  freeInodes : UInt64
  blocksPerGroup : UInt32
  inodesPerGroup : UInt32
  groupDescCount : UInt32
  inodeSize : UInt32
  journalBlock : UInt64
  journalSize : UInt64
  journalLast : UInt64
  uuid : Bytes 16
  volumeName : Bytes 32
  pad : Bytes 3960

namespace Super

def encode (sb : Super) : List UInt8 :=
  leBytes 8 sb.magic.toNat ++ (leBytes 8 sb.blockSize.toNat ++ (leBytes 8 sb.numBlocks.toNat ++
  (leBytes 8 sb.inodeCount.toNat ++ (leBytes 8 sb.freeBlocks.toNat ++ (leBytes 8 sb.freeInodes.toNat ++
  (leBytes 4 sb.blocksPerGroup.toNat ++ (leBytes 4 sb.inodesPerGroup.toNat ++
  (leBytes 4 sb.groupDescCount.toNat ++ (leBytes 4 sb.inodeSize.toNat ++
  (leBytes 8 sb.journalBlock.toNat ++ (leBytes 8 sb.journalSize.toNat ++ (leBytes 8 sb.journalLast.toNat ++
  (sb.uuid.toList ++ (sb.volumeName.toList ++ sb.pad.toList))))))))))))))

def decode (l : List UInt8) : Super where
  magic := .ofNat (leNat (l.take 8))
  blockSize := .ofNat (leNat ((l.drop 8).take 8))
  numBlocks := .ofNat (leNat ((l.drop 16).take 8))
  inodeCount := .ofNat (leNat ((l.drop 24).take 8))
  freeBlocks := .ofNat (leNat ((l.drop 32).take 8))
  freeInodes := .ofNat (leNat ((l.drop 40).take 8))
  blocksPerGroup := .ofNat (leNat ((l.drop 48).take 4))
  inodesPerGroup := .ofNat (leNat ((l.drop 52).take 4))
  groupDescCount := .ofNat (leNat ((l.drop 56).take 4))
  inodeSize := .ofNat (leNat ((l.drop 60).take 4))
  journalBlock := .ofNat (leNat ((l.drop 64).take 8))
  journalSize := .ofNat (leNat ((l.drop 72).take 8))
  journalLast := .ofNat (leNat ((l.drop 80).take 8))
  uuid := .ofList (l.drop 88)
  volumeName := .ofList (l.drop 104)
  pad := .ofList (l.drop 136)

def toBlock (sb : Super) : Block := .ofList sb.encode

def ofBlock (b : Block) : Super := decode (b.read 0 4096)

end Super

structure Gd where
  blockBitmapBlock : UInt32
  inodeTableBlock : UInt32
  freeBlocksCount : UInt32
  freeInodesCount : UInt32
  pad : Bytes 16

namespace Gd

def encode (gd : Gd) : List UInt8 :=
  leBytes 4 gd.blockBitmapBlock.toNat ++ (leBytes 4 gd.inodeTableBlock.toNat ++
  (leBytes 4 gd.freeBlocksCount.toNat ++ (leBytes 4 gd.freeInodesCount.toNat ++ gd.pad.toList)))

def decode (l : List UInt8) : Gd where
  blockBitmapBlock := .ofNat (leNat (l.take 4))
  inodeTableBlock := .ofNat (leNat ((l.drop 4).take 4))
  freeBlocksCount := .ofNat (leNat ((l.drop 8).take 4))
  freeInodesCount := .ofNat (leNat ((l.drop 12).take 4))
  pad := .ofList (l.drop 16)

def toBlock (gd : Nat → Gd) (i : Nat) : Block :=
  ⟨fun j => (gd (i * 128 + j.val / 32)).encode.getD (j.val % 32) 0⟩

def ofBlocks (raw : Nat → Block) (k : Nat) : Gd := decode ((raw (k / 128)).read (k % 128 * 32) 32)

end Gd

structure Inode where
  mode : UInt16
  uid : UInt16
  gid : UInt16
  size : UInt64
  atime : UInt32
  mtime : UInt32
  ctime : UInt32
  blockCount : UInt32
  direct : Fin 12 → UInt32
  indirect : UInt32
  doubleIndirect : UInt32
  pad : Bytes 20
deriving DecidableEq

namespace Inode

def zero : Inode where
  mode := 0
  uid := 0
  gid := 0
  size := 0
  atime := 0
  mtime := 0
  ctime := 0
  blockCount := 0
  direct := fun _ => 0
  indirect := 0
  doubleIndirect := 0
  pad := .zero

def encode (x : Inode) : List UInt8 :=
  leBytes 2 x.mode.toNat ++ (leBytes 2 x.uid.toNat ++ (leBytes 2 x.gid.toNat ++
  (leBytes 8 x.size.toNat ++ (leBytes 4 x.atime.toNat ++ (leBytes 4 x.mtime.toNat ++
  (leBytes 4 x.ctime.toNat ++ (leBytes 4 x.blockCount.toNat ++
  ((List.ofFn fun k => leBytes 4 (x.direct k).toNat).flatten ++ (leBytes 4 x.indirect.toNat ++
  (leBytes 4 x.doubleIndirect.toNat ++ x.pad.toList))))))))))

def decode (l : List UInt8) : Inode where
  mode := .ofNat (leNat (l.take 2))
  uid := .ofNat (leNat ((l.drop 2).take 2))
  gid := .ofNat (leNat ((l.drop 4).take 2))
  size := .ofNat (leNat ((l.drop 6).take 8))
  atime := .ofNat (leNat ((l.drop 14).take 4))
  mtime := .ofNat (leNat ((l.drop 18).take 4))
  ctime := .ofNat (leNat ((l.drop 22).take 4))
  blockCount := .ofNat (leNat ((l.drop 26).take 4))
  direct := fun k => .ofNat (leNat ((l.drop (30 + 4 * k.val)).take 4))
  indirect := .ofNat (leNat ((l.drop 78).take 4))
  doubleIndirect := .ofNat (leNat ((l.drop 82).take 4))
  pad := .ofList (l.drop 86)

def setDirect (x : Inode) (k : Fin 12) (b : UInt32) : Inode :=
  { x with direct := Function.update x.direct k b }

def isDir (x : Inode) : Bool := x.mode &&& sIfdir != 0

end Inode

namespace Dirent

def inode (b : Block) (pos : Nat) : Nat := b.field pos 4
def recLen (b : Block) (pos : Nat) : Nat := b.field (pos + 4) 2
def nameLen (b : Block) (pos : Nat) : Nat := (b.get (pos + 6)).toNat
def fileType (b : Block) (pos : Nat) : UInt8 := b.get (pos + 7)
def name (b : Block) (pos : Nat) : List UInt8 := b.read (pos + 8) (nameLen b pos)

def setInode (pos ino : Nat) (b : Block) : Block := b.write pos (leBytes 4 ino)
def setRecLen (pos len : Nat) (b : Block) : Block := b.write (pos + 4) (leBytes 2 len)

/-- `de->inode`, `de->name_len`, `de->file_type` and `memcpy(de->name, name, nlen)`. -/
def fill (pos ino : Nat) (fileType : UInt8) (name : List UInt8) (b : Block) : Block :=
  (setInode pos ino b).write (pos + 6) (UInt8.ofNat name.length :: fileType :: name)

end Dirent

def bitTest (bm : Block) (bit : Nat) : Bool := (bm.get (bit / 8)).toNat.testBit (bit % 8)

def bitSet (bm : Block) (bit : Nat) : Block :=
  bm.write (bit / 8) [bm.get (bit / 8) ||| (1 <<< UInt8.ofNat (bit % 8))]

def bitClear (bm : Block) (bit : Nat) : Block :=
  bm.write (bit / 8) [bm.get (bit / 8) &&& ~~~(1 <<< UInt8.ofNat (bit % 8))]

end SwiftBSD.Fs
