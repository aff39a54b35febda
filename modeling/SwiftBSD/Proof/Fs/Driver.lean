import SwiftBSD.Fs.Driver
import SwiftBSD.Proof.Fs.Cache
import SwiftBSD.Proof.Hal.Transfers

namespace SwiftBSD.Proof.Fs
open Lib SwiftBSD.Fs SwiftBSD.Hal SwiftBSD.Proof.Hal

variable {s t : Hba} {d : Ahci.Driver} {c : Cache} {port : Int} {i : Fin 64} {block : UInt64} {b : UInt32} {lba : UInt64} {v : Block}

theorem Issued.ready {k : Command} (issued : Issued s t port.toNat k) (ready : Ready s port) : Ready t port := by
  refine ⟨?_, issued.idle.trans ready.idle, (congrArg (· &&& 1) issued.tfd).trans ready.fine⟩
  have use := ready.usable
  unfold usable at use ⊢
  rw [issued.ok, issued.nports, issued.initialized]
  exact use

section Eight
variable (ready : Ready s port) (low : lba.toNat + 8 ≤ 2 ^ 48) (buf : Nat → UInt8)
include ready low

theorem run_ahciRead_eight : ∃ r t, (ahciRead port lba buf 8).run s = some ((4096, r), t) ∧
    (∀ k < 8, ∀ j < 512, r (k * 512 + j) = (s.port port.toNat).sector (lba.toNat + k) j) ∧
    (t.port port.toNat).sector = (s.port port.toNat).sector ∧ Ready t port := by
  have done : ReadDone s port lba 8 := read_one ready (by decide) low (by decide)
  obtain ⟨r, t, run, sectors, same, -⟩ := done buf
  obtain ⟨u, issued, round⟩ := readLoop_round ready.idle ready.fine (by omega : lba.toNat < 2 ^ 48) (by decide : 0 < 8)
    (by decide : 0 + batchOf 8 * 512 < 2 ^ 31) 8 buf
  have after : Ready u port := Issued.ready issued ready
  have call : (ahciRead port lba buf 8).run s = (readLoop port.toNat 9 lba 0 8 buf).run s := by
    unfold ahciRead
    rw [run_bind_some (x := get) rfl, if_pos ready.usable]
    rfl
  rw [call, round] at run
  have ended := run.symm.trans (readLoop_end (by decide))
  obtain rfl : t = u := congrArg Prod.snd (Option.some.inj ended)
  exact ⟨r, t, (call.trans round).trans run, sectors, same, after⟩

theorem run_ahciWrite_eight : ∃ t, (ahciWrite port lba buf 8).run s = some (4096, t) ∧
    (∀ n j, (t.port port.toNat).sector n j = if lba.toNat ≤ n ∧ n < lba.toNat + 8 ∧ j < 512 then buf ((n - lba.toNat) * 512 + j)
      else (s.port port.toNat).sector n j) ∧ Ready t port := by
  have done : WriteDone s port lba 8 := write_one ready (by decide) low (by decide)
  obtain ⟨t, run, sectors, -, -⟩ := done buf
  obtain ⟨u, issued, round⟩ := writeLoop_round ready.idle ready.fine (by omega : lba.toNat < 2 ^ 48) (by decide : 0 < 8)
    (by decide : 0 + batchOf 8 * 512 < 2 ^ 31) 8 buf
  have after : Ready u port := Issued.ready issued ⟨ready.usable, ready.idle, ready.fine⟩
  have call : (ahciWrite port lba buf 8).run s = (writeLoop port.toNat buf 9 lba 0 8).run s := by
    unfold ahciWrite
    rw [run_bind_some (x := get) rfl, if_pos ready.usable]
    rfl
  rw [call, round] at run
  have ended := run.symm.trans (writeLoop_end (by decide))
  obtain rfl : t = u := congrArg Prod.snd (Option.some.inj ended)
  exact ⟨t, (call.trans round).trans run, sectors, after⟩

end Eight

def sectorBlock (h : Hba) (port : Int) (n : Nat) : Block := ⟨fun j => (h.port port.toNat).sector (n * 8 + j.val / 512) (j.val % 512)⟩

theorem toNat_fsBlockToSector (low : block.toNat < 2 ^ 45) : (Ahci.fsBlockToSector block).toNat = block.toNat * 8 := by
  unfold Ahci.fsBlockToSector
  rw [UInt64.toNat_mul]
  change block.toNat * 8 % 2 ^ 64 = _
  omega

section Block
variable (ready : Ready d.hba d.port) (low : block.toNat < 2 ^ 45)
include ready low

theorem run_driver_read (buf : Block) : ∃ hba, (Ahci.readBlock block buf).run d = some ((4096, sectorBlock d.hba d.port block.toNat), { d with hba }) ∧
    Ready hba d.port ∧ ∀ n, sectorBlock hba d.port n = sectorBlock d.hba d.port n := by
  have place := toNat_fsBlockToSector low
  obtain ⟨r, t, run, sectors, same, after⟩ := run_ahciRead_eight ready (by omega : (Ahci.fsBlockToSector block).toNat + 8 ≤ 2 ^ 48) buf.get
  have bytes : Ahci.ofBuf r = sectorBlock d.hba d.port block.toNat := by
    unfold Ahci.ofBuf sectorBlock
    congr 1
    funext j
    have value := sectors (j.val / 512) (by omega) (j.val % 512) (Nat.mod_lt _ (by decide))
    rw [place, show j.val / 512 * 512 + j.val % 512 = j.val by omega] at value
    exact value
  refine ⟨t, ?_, after, fun n => ?_⟩
  · have call : (Ahci.onHba (ahciRead d.port (Ahci.fsBlockToSector block) buf.get 8)).run d = some ((4096, r), { d with hba := t }) := by
      change ((ahciRead d.port (Ahci.fsBlockToSector block) buf.get 8).run d.hba).map _ = _
      rw [run]
      rfl
    unfold Ahci.readBlock
    rw [run_bind_some (StateT.run_get d), run_bind_some call, ← bytes]
    rfl
  · unfold sectorBlock
    rw [same]

theorem run_driver_write (buf : Block) : ∃ hba, (Ahci.writeBlock block buf).run d = some (4096, { d with hba }) ∧ Ready hba d.port ∧
    ∀ n < 2 ^ 45, sectorBlock hba d.port n = Function.update (sectorBlock d.hba d.port) block.toNat buf n := by
  have place := toNat_fsBlockToSector low
  obtain ⟨t, run, sectors, after⟩ := run_ahciWrite_eight ready (by omega : (Ahci.fsBlockToSector block).toNat + 8 ≤ 2 ^ 48) buf.get
  refine ⟨t, ?_, after, fun n small => ?_⟩
  · unfold Ahci.writeBlock
    rw [run_bind_some (StateT.run_get d)]
    change ((ahciWrite d.port (Ahci.fsBlockToSector block) buf.get 8).run d.hba).map _ = _
    rw [run]
    rfl
  · apply Bytes.ext_get
    intro j inside
    have value := sectors (n * 8 + j / 512) (j % 512)
    rw [place] at value
    have left : (sectorBlock t d.port n).get j = (t.port d.port.toNat).sector (n * 8 + j / 512) (j % 512) := dif_pos inside
    rw [left, value]
    by_cases here : n = block.toNat
    · subst here
      rw [Function.update_self, if_pos (by omega)]
      congr 1
      omega
    · rw [Function.update_of_ne here, if_neg (by omega)]
      unfold sectorBlock Bytes.get
      rw [dif_pos inside]

end Block

/-- The driver's cache is the cache `c`, and the blocks on the disk are those below `c`. -/
structure Drives (d : Ahci.Driver) (c : Cache) : Prop where
  ready : Ready d.hba d.port
  disk : ∀ n < 2 ^ 45, sectorBlock d.hba d.port n = c.disk n
  entry : d.entry = c.entry
  next : d.next = c.next
  small : ∀ i, (c.entry i).block < 2 ^ 32

section Drives
variable (drives : Drives d c)
include drives

theorem Drives.read (low : block.toNat < 2 ^ 45) (buf : Block) : ∃ d', (Ahci.readBlock block buf).run d = some ((4096, c.disk block.toNat), d') ∧ Drives d' c := by
  obtain ⟨hba, run, ready, same⟩ := run_driver_read drives.ready low buf
  rw [drives.disk _ low] at run
  exact ⟨_, run, ready, fun n small => (same n).trans (drives.disk n small), drives.entry, drives.next, drives.small⟩

theorem Drives.write (low : block.toNat < 2 ^ 45) (v : Block) : ∃ d', (Ahci.writeBlock block v).run d = some (4096, d') ∧
    Drives d' (c.writeBlock block.toNat v) := by
  obtain ⟨hba, run, ready, written⟩ := run_driver_write drives.ready low v
  refine ⟨_, run, ready, fun n small => ?_, drives.entry, drives.next, drives.small⟩
  rw [written n small]
  change _ = Function.update c.disk block.toNat v n
  by_cases here : n = block.toNat
  · rw [here, Function.update_self, Function.update_self]
  · rw [Function.update_of_ne here, Function.update_of_ne here]
    exact drives.disk n small

theorem Drives.setEntry {e : CacheEntry} (small : e.block < 2 ^ 32) :
    Drives { d with entry := Function.update d.entry i e } { c with entry := Function.update c.entry i e } := by
  refine ⟨drives.ready, drives.disk, by rw [drives.entry], drives.next, fun j => ?_⟩
  change (Function.update c.entry i e j).block < _
  by_cases here : j = i
  · rw [here, Function.update_self]
    exact small
  · rw [Function.update_of_ne here]
    exact drives.small j

theorem Drives.lookup (n group : Nat) : Ahci.cacheLookup d.entry n group = c.cacheLookup n group := by
  unfold Ahci.cacheLookup Cache.cacheLookup
  rw [drives.entry]

theorem Drives.writeBack (j : Fin 64) : ∃ r d', (Ahci.writeBlock (.ofNat (d.entry j).block) (d.entry j).data).run d = some (r, d') ∧
    Drives d' (c.writeBlock (c.entry j).block (c.entry j).data) := by
  have small := drives.small j
  have number : (UInt64.ofNat (c.entry j).block).toNat = (c.entry j).block := UInt64.toNat_ofNat_of_lt' (by change _ < 2 ^ 64; omega)
  have low : (UInt64.ofNat (c.entry j).block).toNat < 2 ^ 45 := by omega
  obtain ⟨d', run, after⟩ := drives.write low (c.entry j).data
  rw [number] at after
  rw [drives.entry]
  exact ⟨_, d', run, after⟩

theorem Drives.advance : Drives { d with next := Cache.advance d.next } { c with next := Cache.advance c.next } :=
  ⟨drives.ready, drives.disk, drives.entry, congrArg Cache.advance drives.next, drives.small⟩

theorem Drives.fill (b : UInt32) (data : Block) : ∃ d', (do
      Ahci.setEntry i ⟨b.toNat, 0, data, false, true⟩
      let (_, data) ← Ahci.readBlock b.toUInt64 data
      Ahci.setEntry i ⟨b.toNat, 0, data, false, true⟩
      return i : Ahci.DriverM (Fin 64)).run d = some (i, d') ∧
    Drives d' { c with entry := Function.update c.entry i ⟨b.toNat, 0, c.disk b.toNat, false, true⟩ } := by
  have bound := b.toNat_lt
  have low : b.toUInt64.toNat < 2 ^ 45 := by
    rw [UInt32.toNat_toUInt64]
    omega
  have started := drives.setEntry (i := i) (e := ⟨b.toNat, 0, data, false, true⟩) bound
  obtain ⟨d₁, read, drives₁⟩ := started.read low data
  have filled := drives₁.setEntry (i := i) (e := ⟨b.toNat, 0, c.disk b.toNat, false, true⟩) bound
  dsimp only at filled
  rw [Function.update_idem] at filled
  refine ⟨_, ?_, filled⟩
  rw [run_bind_some (x := Ahci.setEntry _ _) rfl, run_bind_some read]
  rfl

theorem Drives.cacheGet (b : UInt32) : ∃ d', (Ahci.cacheGet b 0).run d = some ((c.cacheGet b.toNat 0).1, d') ∧ Drives d' (c.cacheGet b.toNat 0).2 := by
  unfold Ahci.cacheGet Cache.cacheGet
  rw [run_bind_some (StateT.run_get d), drives.lookup]
  cases c.cacheLookup b.toNat 0 with
  | some idx => exact ⟨d, rfl, drives⟩
  | none =>
      have next := drives.next
      have entry := congrFun drives.entry d.next
      have moved := drives.advance
      obtain ⟨r, d₁, write, drives₁⟩ := moved.writeBack d.next
      dsimp only at write drives₁ ⊢
      rw [run_bind_some (StateT.run_get d), run_bind_some (x := modify _) rfl, run_bind_some (StateT.run_get _)]
      dsimp only
      unfold Cache.replace
      rw [← next, ← entry]
      dsimp only
      cases dirty : (d.entry d.next).dirty with
      | true =>
          obtain ⟨d', run, after⟩ := drives₁.fill (i := d.next) b (d.entry d.next).data
          rw [if_pos rfl, if_pos rfl, run_bind_some write]
          refine ⟨d', run, ?_⟩
          rw [entry]
          rw [next] at after ⊢
          exact after
      | false =>
          obtain ⟨d', run, after⟩ := moved.fill (i := d.next) b (d.entry d.next).data
          rw [if_neg Bool.false_ne_true, if_neg Bool.false_ne_true]
          refine ⟨d', run, ?_⟩
          rw [next] at after ⊢
          exact after

theorem Drives.markDirty (b : UInt32) : ∃ d', (Ahci.cacheMarkDirty b 0).run d = some ((), d') ∧ Drives d' (c.cacheMarkDirty b.toNat 0) := by
  unfold Ahci.cacheMarkDirty Cache.cacheMarkDirty
  rw [run_bind_some (StateT.run_get d), drives.lookup]
  cases c.cacheLookup b.toNat 0 with
  | none => exact ⟨d, rfl, drives⟩
  | some i =>
      have after := drives.setEntry (i := i) (e := { c.entry i with dirty := true }) (drives.small i)
      rw [← congrFun drives.entry i] at after
      refine ⟨_, rfl, ?_⟩
      dsimp only
      rw [← congrFun drives.entry i]
      exact after

theorem Drives.setData (f : Block → Block) : Drives { d with entry := Function.update d.entry i { d.entry i with data := f (d.entry i).data } } (c.setData i f) := by
  have after := drives.setEntry (i := i) (e := { c.entry i with data := f (c.entry i).data }) (drives.small i)
  rw [← congrFun drives.entry i] at after
  unfold Cache.setData
  rw [← congrFun drives.entry i]
  exact after

theorem Drives.flushEntry (i : Fin 64) : ∃ d', (Ahci.flushEntry i).run d = some ((), d') ∧ Drives d' (c.flushEntry i) := by
  obtain ⟨r, d₁, write, drives₁⟩ := drives.writeBack i
  have after := drives₁.setEntry (i := i) (e := { c.entry i with dirty := false }) (drives.small i)
  have entry := congrFun drives.entry i
  unfold Ahci.flushEntry Cache.flushEntry
  rw [run_bind_some (StateT.run_get d)]
  rw [← entry] at after ⊢
  dsimp only
  by_cases flush : ((d.entry i).valid && (d.entry i).dirty) = true
  · rw [if_pos flush, if_pos flush, run_bind_some write]
    exact ⟨_, rfl, after⟩
  · rw [if_neg flush, if_neg flush]
    exact ⟨d, rfl, drives⟩

end Drives

theorem Drives.flushList (xs : List (Fin 64)) (drives : Drives d c) : ∃ d', (xs.forM Ahci.flushEntry).run d = some ((), d') ∧ Drives d' (xs.foldl Cache.flushEntry c) := by
  induction xs generalizing d c with
  | nil => exact ⟨d, rfl, drives⟩
  | cons i rest ih =>
      obtain ⟨d₁, run, drives₁⟩ := drives.flushEntry i
      obtain ⟨d', run', drives'⟩ := ih drives₁
      refine ⟨d', ?_, drives'⟩
      change (Ahci.flushEntry i >>= fun _ => rest.forM Ahci.flushEntry).run d = _
      rw [run_bind_some run]
      exact run'

theorem Drives.flushAll (drives : Drives d c) : ∃ d', Ahci.cacheFlushAll.run d = some ((), d') ∧ Drives d' c.cacheFlushAll := by
  unfold Ahci.cacheFlushAll Cache.cacheFlushAll
  exact drives.flushList _

/-- A block that is read or written past the cache lies on a disk with addresses of 48 bits. -/
def BlockOp.Low : Ahci.BlockOp → Prop
  | .read block _ | .write block _ => block.toNat < 2 ^ 45
  | _ => True

theorem Drives.exec {op : Ahci.BlockOp} (drives : Drives d c) (low : BlockOp.Low op) : ∃ d', op.exec.run d = some ((op.run c).1, d') ∧ Drives d' (op.run c).2 := by
  cases op with
  | get b =>
      obtain ⟨d', run, after⟩ := drives.cacheGet b
      refine ⟨d', ?_, after⟩
      unfold Ahci.BlockOp.exec Ahci.BlockOp.run
      dsimp only
      rw [run_bind_some run, ← after.entry]
      rfl
  | modify b f =>
      obtain ⟨d₁, run, drives₁⟩ := drives.cacheGet b
      obtain ⟨d', mark, after⟩ := (drives₁.setData (i := (c.cacheGet b.toNat 0).1) f).markDirty b
      refine ⟨d', ?_, after⟩
      unfold Ahci.BlockOp.exec Ahci.BlockOp.run
      dsimp only
      rw [run_bind_some run, run_bind_some (StateT.run_get d₁), run_bind_some (x := Ahci.setEntry _ _) rfl, run_bind_some mark]
      rfl
  | flush =>
      obtain ⟨d', run, after⟩ := drives.flushAll
      unfold Ahci.BlockOp.exec Ahci.BlockOp.run
      dsimp only
      refine ⟨d', ?_, after⟩
      rw [run_bind_some run]
      rfl
  | read block buf =>
      obtain ⟨d', run, after⟩ := drives.read low buf
      refine ⟨d', ?_, after⟩
      unfold Ahci.BlockOp.exec Ahci.BlockOp.run
      dsimp only
      rw [run_bind_some run]
      rfl
  | write block v =>
      obtain ⟨d', run, after⟩ := drives.write low v
      refine ⟨d', ?_, after⟩
      unfold Ahci.BlockOp.exec Ahci.BlockOp.run
      dsimp only
      rw [run_bind_some run]
      rfl

theorem Drives.runs (drives : Drives d c) (ops : List Ahci.BlockOp) (low : ∀ op ∈ ops, BlockOp.Low op) :
    ∃ d', (ops.mapM Ahci.BlockOp.exec).run d = some ((Ahci.BlockOp.runs c ops).1, d') ∧ Drives d' (Ahci.BlockOp.runs c ops).2 := by
  induction ops generalizing d c with
  | nil => exact ⟨d, rfl, drives⟩
  | cons op rest ih =>
      obtain ⟨d₁, run, drives₁⟩ := drives.exec (low op (List.mem_cons_self ..))
      obtain ⟨d', run', drives'⟩ := ih drives₁ fun op member => low op (List.mem_cons_of_mem _ member)
      refine ⟨d', ?_, drives'⟩
      rw [List.mapM_cons, run_bind_some run, run_bind_some run']
      rfl

/-- The cache of the driver over the blocks of its disk. -/
def aboveDisk (d : Ahci.Driver) : Cache := ⟨sectorBlock d.hba d.port, d.entry, d.next⟩

theorem drives_aboveDisk (ready : Ready d.hba d.port) (small : ∀ i, (d.entry i).block < 2 ^ 32) : Drives d (aboveDisk d) :=
  ⟨ready, fun _ _ => rfl, rfl, rfl, small⟩

/-- Over a port that is ready, every run of block operations has the answers that it has over an array of blocks, and it leaves the same
cache and the same blocks. -/
theorem driver_refines (ready : Ready d.hba d.port) (small : ∀ i, (d.entry i).block < 2 ^ 32) (ops : List Ahci.BlockOp)
    (low : ∀ op ∈ ops, BlockOp.Low op) :
    ∃ d', (ops.mapM Ahci.BlockOp.exec).run d = some ((Ahci.BlockOp.runs (aboveDisk d) ops).1, d') ∧
      Drives d' (Ahci.BlockOp.runs (aboveDisk d) ops).2 :=
  (drives_aboveDisk ready small).runs ops low

/-- Operations that reach the disk through the cache. -/
inductive StoreOp
  | get (block : UInt32)
  | modify (block : UInt32) (f : Block → Block)
  | flush

def StoreOp.blockOp : StoreOp → Ahci.BlockOp
  | .get b => .get b
  | .modify b f => .modify b f
  | .flush => .flush

/-- The operation on the contents of the blocks. -/
def StoreOp.run (L : Nat → Block) : StoreOp → Option Block × (Nat → Block)
  | .get b => (some (L b.toNat), L)
  | .modify b f => (none, Function.update L b.toNat (f (L b.toNat)))
  | .flush => (none, L)

def StoreOp.runs (L : Nat → Block) : List StoreOp → List (Option Block) × (Nat → Block)
  | [] => ([], L)
  | op :: rest => ((op.run L).1 :: (runs (op.run L).2 rest).1, (runs (op.run L).2 rest).2)

variable {L : Nat → Block}

theorem Stands.blockOp (stands : Stands c L) (op : StoreOp) : (op.blockOp.run c).1 = (op.run L).1 ∧ Stands (op.blockOp.run c).2 (op.run L).2 := by
  cases op with
  | get b => exact ⟨congrArg some (stands.cached b.toNat), stands.run (.get b.toNat)⟩
  | modify b f => exact ⟨rfl, stands.run (.modify b.toNat f)⟩
  | flush =>
      have after : Stands c.cacheFlushAll L := stands.run .flush
      unfold StoreOp.blockOp Ahci.BlockOp.run StoreOp.run
      dsimp only
      exact ⟨rfl, after⟩

theorem Stands.blockOps (stands : Stands c L) (ops : List StoreOp) :
    (Ahci.BlockOp.runs c (ops.map StoreOp.blockOp)).1 = (StoreOp.runs L ops).1 ∧
      Stands (Ahci.BlockOp.runs c (ops.map StoreOp.blockOp)).2 (StoreOp.runs L ops).2 := by
  induction ops generalizing c L with
  | nil => exact ⟨rfl, stands⟩
  | cons op rest ih =>
      obtain ⟨answer, after⟩ := stands.blockOp op
      obtain ⟨answers, final⟩ := ih after
      refine ⟨?_, final⟩
      unfold StoreOp.runs
      rw [List.map_cons, Ahci.BlockOp.runs, answer, answers]

/-- From an empty cache on, every `cache_get` finds what was put into its block last, and after a flush the sectors hold the contents of the
blocks. -/
theorem driver_stores (ready : Ready d.hba d.port) (empty : ∀ i, d.entry i = .empty) (ops : List StoreOp) :
    ∃ d₁ d', ((ops.map StoreOp.blockOp).mapM Ahci.BlockOp.exec).run d = some ((StoreOp.runs (sectorBlock d.hba d.port) ops).1, d₁) ∧
      Ahci.cacheFlushAll.run d₁ = some ((), d') ∧ Ready d'.hba d'.port ∧
      ∀ n < 2 ^ 45, sectorBlock d'.hba d'.port n = (StoreOp.runs (sectorBlock d.hba d.port) ops).2 n := by
  have small (i : Fin 64) : (d.entry i).block < 2 ^ 32 := by
    rw [empty i]
    decide
  have stands : Stands (aboveDisk d) (sectorBlock d.hba d.port) := stands_empty empty
  have low : ∀ op ∈ ops.map StoreOp.blockOp, BlockOp.Low op := by
    intro op member
    obtain ⟨op', -, rfl⟩ := List.mem_map.mp member
    cases op' <;> trivial
  obtain ⟨d₁, run, drives⟩ := (drives_aboveDisk ready small).runs _ low
  obtain ⟨answers, after⟩ := stands.blockOps ops
  obtain ⟨d', flush, drives'⟩ := drives.flushAll
  refine ⟨d₁, d', answers ▸ run, flush, drives'.ready, fun n inside => ?_⟩
  exact (drives'.disk n inside).trans (after.flushed n)

/-- A port with an empty disk below an empty cache. -/
def oneDriver : Ahci.Driver := ⟨onePort, 0, fun _ => .empty, ⟨0, Nat.zero_lt_succ 63⟩⟩

theorem driver_refines_root : ∃ d', ([.modify 2 fun b => b.write 0 [1], .write 2 .zero, .get 2].mapM Ahci.BlockOp.exec).run oneDriver =
      some ((Ahci.BlockOp.runs (aboveDisk oneDriver) [.modify 2 fun b => b.write 0 [1], .write 2 .zero, .get 2]).1, d') ∧
    Drives d' (Ahci.BlockOp.runs (aboveDisk oneDriver) [.modify 2 fun b => b.write 0 [1], .write 2 .zero, .get 2]).2 := by
  refine driver_refines onePort_ready (fun _ => (by decide : CacheEntry.empty.block < 2 ^ 32)) _ fun op member => ?_
  simp only [List.mem_cons, List.not_mem_nil, or_false] at member
  obtain rfl | rfl | rfl := member
  · trivial
  · exact (by decide : (2 : UInt64).toNat < 2 ^ 45)
  · trivial

theorem driver_stores_root : ∃ d₁ d', (([StoreOp.modify 2 fun b => b.write 0 [1], .get 2].map StoreOp.blockOp).mapM Ahci.BlockOp.exec).run oneDriver =
      some ((StoreOp.runs (sectorBlock onePort 0) [.modify 2 fun b => b.write 0 [1], .get 2]).1, d₁) ∧
    Ahci.cacheFlushAll.run d₁ = some ((), d') ∧ Ready d'.hba d'.port ∧
    ∀ n < 2 ^ 45, sectorBlock d'.hba d'.port n = (StoreOp.runs (sectorBlock onePort 0) [.modify 2 fun b => b.write 0 [1], .get 2]).2 n :=
  driver_stores (d := oneDriver) onePort_ready (fun _ => rfl) _

end SwiftBSD.Proof.Fs
