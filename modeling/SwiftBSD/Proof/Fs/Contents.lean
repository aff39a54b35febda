import SwiftBSD.Proof.Fs.Allocator
import SwiftBSD.Proof.Fs.FileRuns
import SwiftBSD.Proof.Fs.InodeArray

namespace SwiftBSD.Proof.Fs
open Lib SwiftBSD.Fs

theorem Own.weaken {R R' : Nat → Prop} {V : Vol} (own : Own R V) (reserved : ∀ b, Meta V.groups b → R' b) (less : ∀ b, R' b → R b) :
    Own R' V :=
  ⟨⟨own.owns.marked, fun p stored inside => own.owns.unreserved p stored (less _ inside), own.owns.unique,
    fun b inside => own.owns.covered b (less b inside)⟩, reserved⟩

theorem swiftfs2Write_contents {s : FsState Disk} {fd : Int} {buf : List UInt8} {i p size : Nat} (layout : Layout s)
    (own : Own (Meta s.nrGroups) (volOf s)) (opened : fdOpen s.fds fd = true)
    (writable : (s.fds fd.toNat).flags ≠ oRdonly) (bound : i < 4096 * s.nrGroups)
    (hi : (s.fds fd.toNat).inode = i) (hp : (s.fds fd.toNat).pos = p) (hsize : (inodeAt s i).size.toNat = size)
    (solid : NoHoles s i) (start : p ≤ size) :
    ∃ (d : Nat) (s' : FsState Disk), (swiftfs2Write fd buf).run s = some ((d : Int), s') ∧ d ≤ buf.length ∧
      fileContents s' i = (fileContents s i).take p ++ buf.take d ++ (fileContents s i).drop (p + d) ∧
      (inodeAt s' i).size.toNat = max size (p + d) ∧ NoHoles s' i ∧
      (∀ j < 4096 * s.nrGroups, j ≠ i → inodeAt s' j = inodeAt s j ∧ fileContents s' j = fileContents s j) ∧
      (d < buf.length → OutOfBlocks s' s.heap ∨ p + d = 1036 * 4096) ∧
      ∀ (fd' : Int) (m q : Nat), fdOpen s'.fds fd' = true → (s'.fds fd'.toNat).flags ≠ oWronly →
        (s'.fds fd'.toNat).inode = i → (s'.fds fd'.toNat).pos = q → m ≤ max size (p + d) →
        ∃ s'', (swiftfs2Read fd' m).run s' =
          some ((((min m (max size (p + d) - q) : Nat) : Int), ((fileContents s' i).drop q).take m), s'') := by
  subst hi hp hsize
  have rep := rep_volOf layout
  have solid' := (rep.noHoles own bound).mp solid
  obtain ⟨r, s', V', run, rep', post⟩ := runs_swiftfs2Write own buf bound s rep
  obtain ⟨d, rfl, short, own', inodes, answers, written, size, whole, others, stop⟩ :=
    post.file own opened writable bound rfl rfl rfl solid' start
  have bound' : (s.fds fd.toNat).inode < V'.inodes := inodes ▸ bound
  refine ⟨d, s', run, short, ?_, ?_, ?_, ?_, ?_, ?_⟩
  · rw [rep'.fileContents own' bound', rep.fileContents own bound]
    exact written
  · rw [rep'.inode _ bound']
    exact size
  · rw [rep'.noHoles own' bound', size]
    exact whole
  · intro j hj other
    have hj' : j < V'.inodes := inodes ▸ hj
    rw [rep'.inode j hj', rep'.fileContents own' hj', rep.fileContents own hj]
    exact others j hj other
  · intro less
    exact (stop less).imp_left fun out => rep'.exhausted out s.heap answers
  · intro fd' m q opened' readable hi' hq fits
    rw [rep'.fds] at opened' readable hi' hq
    have inside : (V'.fds fd'.toNat).inode < V'.inodes := hi' ▸ bound'
    obtain ⟨r, s'', V'', run', -, post'⟩ := runs_swiftfs2Read own' m inside s' rep'
    rw [← size] at whole
    have result := post'.whole opened' readable (by rw [hi']) whole (size ▸ fits)
    rw [hq, size] at result
    rw [rep'.fileContents own' bound']
    exact ⟨s'', by rw [run', result]; rfl⟩

theorem swiftfs2Write_contents_new : ∃ img s₀ s i fd d s', mkfs 128 = some img ∧
    swiftfs2Mount.run (FsState.boot img fun _ => true) = some (0, s₀) ∧ ReachBoot Careful s₀ s ∧ isFile (inodeAt s i) = true ∧
    fileContents s i = [] ∧ (swiftfs2Write (fd : Nat) (List.replicate 5000 0x41)).run s = some (((d : Nat) : Int), s') ∧
    fileContents s' i = List.replicate (min d 5000) 0x41 ∧ (d < 5000 → OutOfBlocks s' s.heap) := by
  obtain ⟨img, s₀, s, i, fd, made, mounted, reach, file, -⟩ := emptyFile_128
  obtain ⟨V, D, vol⟩ := reachBoot_held (mkfs_held (by decide) made mounted) reach
  have own := (vol.rep.own_volOf vol.consistent.own).weaken (fun _ inside => inside) fun b inside =>
    (vol.rep.own_volOf vol.consistent.own).reserved b inside
  have slot : s.fds (fd : Int).toNat = ⟨i, 0, oCreat ||| oRdwr, false⟩ := file.slot
  have size : (inodeAt s i).size.toNat = 0 := by
    have := congrArg List.length file.empty
    rwa [fileContents, contents_length] at this
  have inside : i < 4096 * s.nrGroups := by
    have := vol.consistent.fds fd
    rw [← vol.rep.fds, file.inode] at this
    rwa [vol.rep.groups]
  have opened : fdOpen s.fds fd = true := by
    have upper := file.upper
    have used := file.nonzero
    simp [fdOpen, file.slot, used]
    omega
  have writable : (s.fds (fd : Int).toNat).flags ≠ oRdonly := by
    rw [slot]
    exact (by decide : oCreat ||| oRdwr ≠ oRdonly)
  have solid : NoHoles s i := fun k short => by
    rw [size] at short
    omega
  obtain ⟨d, s', run, short, written, -, -, -, stop, -⟩ := @swiftfs2Write_contents s fd (List.replicate 5000 0x41) _ _ _
    vol.rep.layout own opened writable inside (by rw [slot]) (by rw [slot]) size solid (Nat.le_refl 0)
  refine ⟨img, s₀, s, i, fd, d, s', made, mounted, reach, file.file, file.empty, run, ?_, fun less => ?_⟩
  · rw [written, file.empty, List.take_replicate]
    simp
  · rw [List.length_replicate] at short stop
    exact (stop less).resolve_right (by omega)

def emptyReg : Inode := { Inode.zero with mode := sIfreg }

/-- An empty regular file, inode 2, is open for writing in descriptor 2. The bitmap has the superblock, the
descriptors and itself marked used, but not the inode table, which starts at block 3. -/
def strayTable : FsState Disk :=
  { FsState.boot ⟨setSlot 1 (fun _ => .zero) 2 emptyReg⟩ fun _ => true with
    sb := (Geometry.ofMb 128).superblock
    mounted := true
    nrGroups := 1
    gd := (Geometry.ofMb 128).gd
    bitmaps := fun _ => some (bitSet (bitSet (bitSet .zero 0) 1) 2)
    fds := Function.update (fun _ => .zero) 2 ⟨2, 0, oRdwr, false⟩ }

theorem strayTable_layout : Layout strayTable where
  mounted := rfl
  magic := rfl
  blockSize := rfl
  count := by decide +kernel
  positive := by decide
  bound := by decide
  desc := by decide +kernel
  bitmap := by decide +kernel
  table := by decide +kernel

theorem strayTable_inode (i : Nat) : inodeAt strayTable i = if i = 2 then emptyReg else .zero := by
  have stored : inodeAt strayTable i = storedInode 1 (setSlot 1 (fun _ => .zero) 2 emptyReg) i := rfl
  rw [stored, inode_setSlot (by decide)]
  split
  · rfl
  · exact decode_zero_read _

theorem strayTable_slots (p : Nat × Nat) : (volOf strayTable).slots p = 0 := by
  unfold Vol.slots
  split
  · rw [show (volOf strayTable).inode p.1 = inodeAt strayTable p.1 from rfl, strayTable_inode]
    split <;> exact slot_bare (fun _ => rfl) rfl p.2
  · rfl

theorem writeLoop_done {pos n done : Nat} {buf : List UInt8} {x : Inode} (all : buf.length ≤ done) :
    (writeLoop pos buf n done x : FsM Disk _) = pure (done, x) := by
  cases n with
  | zero => rfl
  | succ n => simp [writeLoop, all]

theorem strayTable_alloc : blockAlloc.run strayTable = some (3, takeBlock 0 3 (bitSet (bitSet (bitSet .zero 0) 1) 2) strayTable) := by
  have first : firstFrom (fun b => !bitTest (bitSet (bitSet (bitSet .zero 0) 1) 2) b) 0 32768 = some 3 := by decide +kernel
  have count : ¬ (strayTable.gd 0).freeBlocksCount = 0 := by decide +kernel
  have bitmap := run_bitmapForGroup_present (s := strayTable) (g := 0) (by decide) rfl
  have answer : (blockAllocIn 0).run strayTable = some (some 3, takeBlock 0 3 (bitSet (bitSet (bitSet .zero 0) 1) 2) strayTable) := by
    unfold blockAllocIn
    simp [count, bitmap, first, cacheMarkDirty, BlockStore.cacheMarkDirty]
  have search : (searchM (fun gi => blockAllocIn ((strayTable.currGroup + gi) % strayTable.nrGroups)) 0 strayTable.nrGroups).run strayTable =
      some (some 3, takeBlock 0 3 (bitSet (bitSet (bitSet .zero 0) 1) 2) strayTable) := by
    rw [show strayTable.nrGroups = 1 from rfl, searchM, Nat.mod_one, run_bind_some answer]
    rfl
  unfold blockAlloc
  simp [search]

section
variable (buf : List UInt8)

def strayWritten : FsState Disk :=
  { takeBlock 0 3 (bitSet (bitSet (bitSet .zero 0) 1) 2) strayTable with
    dev := strayTable.dev.set 3 ((strayTable.dev.block 3).write 0 buf) }

theorem strayWritten_layout : Layout (strayWritten buf) :=
  have counted : Layout { strayTable with
      sb := { strayTable.sb with freeBlocks := strayTable.sb.freeBlocks - 1 }
      gd := Function.update strayTable.gd 0 { strayTable.gd 0 with freeBlocksCount := (strayTable.gd 0).freeBlocksCount - 1 } } :=
    strayTable_layout.updateGd rfl rfl rfl
  { counted with }

variable {buf} (length : buf.length = 4096)
include length

theorem strayWritten_inode : inodeAt (strayWritten buf) 3 = Inode.decode ((buf.drop 384).take 106) := by
  have place : inodeBlock 1 3 = 3 := by decide
  have block : (strayWritten buf).dev.block (inodeBlock 1 3) = (strayTable.dev.block 3).write 0 buf := by
    rw [place]
    exact Function.update_self 3 ((strayTable.dev.block 3).write 0 buf) strayTable.dev.block
  change Inode.decode (((strayWritten buf).dev.block (inodeBlock 1 3)).read 384 106) = _
  rw [block, ← Bytes.read_write_inside (strayTable.dev.block 3) 0 384 106 buf (by omega) (by omega)]

theorem strayTable_loop : (writeLoop 0 buf 4096 0 emptyReg).run strayTable =
    some ((4096, emptyReg.setDirect 0 3), strayWritten buf) := by
  have mapped : (bmapRead emptyReg 0 true).run strayTable =
      some ((3, emptyReg.setDirect 0 3), takeBlock 0 3 (bitSet (bitSet (bitSet .zero 0) 1) 2) strayTable) := by
    simp [bmapRead, emptyReg, Inode.zero, strayTable_alloc]
  have whole : buf.take 4096 = buf := List.take_of_length_le length.le
  rw [show (4096 : Nat) = 4095 + 1 from rfl, writeLoop]
  rw [if_neg (by rw [length]; decide)]
  simp [mapped, length, whole, writeLoop_done, cacheGet, put, BlockStore.cacheGet, BlockStore.put]
  rfl

theorem strayTable_write : ∃ s', (swiftfs2Write 2 buf).run strayTable = some (4096, s') ∧ inodeAt s' 3 = Inode.decode ((buf.drop 384).take 106) := by
  have opened : fdOpen strayTable.fds 2 = true := rfl
  have slot : strayTable.fds 2 = ⟨2, 0, oRdwr, false⟩ := rfl
  have writable : ¬ oRdwr = oRdonly := by decide
  have read : (inodeRead 2).run strayTable = some (emptyReg, strayTable) := by
    have inode : (volOf strayTable).inode 2 = emptyReg := strayTable_inode 2
    rw [run_inodeRead (rep_volOf strayTable_layout) (by change 2 < 4096 * 1; decide), inode]
  have inside : 2 < (volOf (strayWritten buf)).inodes := by change 2 < 4096 * 1; decide
  obtain ⟨_, t, _, stored, rep, rfl⟩ := runs_inodeWrite inside ((emptyReg.setDirect 0 3).grow 4096)
    (strayWritten buf) (rep_volOf (strayWritten_layout buf))
  have loop := strayTable_loop length
  have inode : inodeAt t 3 = inodeAt (strayWritten buf) 3 := rep.inode 3 (by change 3 < 4096 * 1; decide)
  refine ⟨setPos 2 4096 t, ?_, inode.trans (strayWritten_inode length)⟩
  unfold swiftfs2Write
  simp [opened, slot, writable, read, loop, stored, length]

end

/-- Every block stored in an inode or an indirect table is marked used, is no metadata and is stored once. -/
structure BlocksStored (s : FsState Disk) : Prop where
  marked : ∀ p, (volOf s).slots p ≠ 0 → (volOf s).Used ((volOf s).slots p)
  apart : ∀ p, (volOf s).slots p ≠ 0 → ¬ Meta s.nrGroups ((volOf s).slots p)
  once : ∀ p q, (volOf s).slots p ≠ 0 → (volOf s).slots p = (volOf s).slots q → p = q

theorem write_over_table : ∃ (s s' : FsState Disk) (buf : List UInt8), Layout s ∧ BlocksStored s ∧ isFile (inodeAt s 2) = true ∧
    (inodeAt s 2).size = 0 ∧ NoHoles s 2 ∧ s.fds 2 = ⟨2, 0, oRdwr, false⟩ ∧ (swiftfs2Write 2 buf).run s = some (4096, s') ∧
    (inodeAt s' 3).size ≠ (inodeAt s 3).size := by
  obtain ⟨s', run, inode⟩ := @strayTable_write (List.replicate 4096 0x41) List.length_replicate
  have two : inodeAt strayTable 2 = emptyReg := strayTable_inode 2
  have none (p : Nat × Nat) (stored : (volOf strayTable).slots p ≠ 0) : False := stored (strayTable_slots p)
  refine ⟨strayTable, s', _, strayTable_layout, ⟨fun p stored => (none p stored).elim, fun p stored => (none p stored).elim,
    fun p _ stored => (none p stored).elim⟩, ?_, ?_, ?_, rfl, run, ?_⟩
  · rw [two]
    decide
  · rw [two]
    rfl
  · unfold NoHoles
    rw [two]
    exact fun k inside => absurd inside (Nat.not_lt_zero k)
  · have size : (Inode.decode (List.replicate 106 0x41)).size ≠ 0 := by decide +kernel
    rw [inode, strayTable_inode, List.drop_replicate, List.take_replicate]
    exact size

end SwiftBSD.Proof.Fs
