import SwiftBSD.Proof.Fs.Image

namespace SwiftBSD.Proof.Fs
open Lib SwiftBSD.Fs

section Mount
variable {σ : Type} [BlockStore σ] {dev : σ} {s s' : FsState σ} {blk : Nat → Block}

theorem readBlock_run (reads : ∀ b, BlockStore.readBlock b dev = some (blk b)) (here : s.dev = dev) (b : Nat) :
    (readBlock b).run s = some (blk b, s) := by
  have read := reads b
  rw [← here] at read
  unfold readBlock
  rw [run_bind_some (x := get) (s := s) rfl, read]
  rfl

theorem readBlocks_run (reads : ∀ b, BlockStore.readBlock b dev = some (blk b)) (here : s.dev = dev) (n : Nat) :
    (readBlocks n).run s = some (fun k => if k < n then blk (1 + k) else .zero, s) := by
  induction n with
  | zero => simp [readBlocks]
  | succ n ih =>
      unfold readBlocks
      rw [run_bind_some ih, run_bind_some (readBlock_run reads here (1 + n))]
      simp only [StateT.run_pure, Option.pure_def, Option.some.injEq, Prod.mk.injEq, and_true]
      funext k
      by_cases same : k = n
      · subst same
        simp
      · rw [Function.update_of_ne same]
        refine if_congr ?_ rfl rfl
        omega

/-- The answer of `kmalloc` for a request, when the heap is willing or not. -/
def grants (answer : Bool) (size : Nat) : Bool := answer && size + 24 ≤ 1048576

theorem kmalloc_run {τ : Type} {s : FsState τ} (size : Nat) :
    (kmalloc size).run s = some (grants (s.heap 0) size, { s with heap := fun k => s.heap (k + 1) }) := rfl

structure Mountable (blk : Nat → Block) (heap : Nat → Bool) (sb : Super) : Prop where
  super : Super.ofBlock (blk 0) = sb
  magic : sb.magic = SwiftBSD.Fs.magic
  size : sb.blockSize = 4096
  desc : sb.descBlocks = Int.bmod sb.groupDescCount.toNat (2 ^ 32)
  descHeap : grants (heap 0) (sb.descBlocks.toNat * 4096) = true
  bitmapHeap : grants (heap 1) (8 * sb.nrGroups.toNat) = true

def mountState (dev : σ) (blk : Nat → Block) (heap : Nat → Bool) (sb : Super) : FsState σ where
  dev := dev
  sb := sb
  mounted := true
  nrGroups := sb.nrGroups.toNat
  gd := Gd.ofBlocks fun k => if k < sb.descBlocks.toNat then blk (1 + k) else .zero
  bitmaps := fun _ => none
  currGroup := 0
  fds := fun _ => .zero
  heap := fun k => heap (k + 2)

theorem loadGroupDescriptors_run (reads : ∀ b, BlockStore.readBlock b s.dev = some (blk b)) :
    ∃ ok s', loadGroupDescriptors.run s = some (ok, s') ∧ (ok = true ↔
      s.sb.descBlocks = Int.bmod s.sb.groupDescCount.toNat (2 ^ 32) ∧
      grants (s.heap 0) (s.sb.descBlocks.toNat * 4096) = true ∧
      grants (s.heap 1) (8 * s.sb.nrGroups.toNat) = true) ∧
      (ok = true → s' = { s with
        nrGroups := s.sb.nrGroups.toNat
        gd := Gd.ofBlocks fun k => if k < s.sb.descBlocks.toNat then blk (1 + k) else .zero
        bitmaps := fun _ => none
        heap := fun k => s.heap (k + 2) }) := by
  unfold loadGroupDescriptors
  rw [run_bind_some (x := get) (s := s) rfl, run_bind_some (s := s) rfl]
  by_cases desc : s.sb.descBlocks = Int.bmod s.sb.groupDescCount.toNat (2 ^ 32)
  · rw [if_neg (not_not_intro desc), run_bind_some (kmalloc_run _)]
    dsimp only
    cases descHeap : grants (s.heap 0) (s.sb.descBlocks.toNat * 4096) with
    | true =>
        rw [if_neg (by decide), run_bind_some (readBlocks_run reads
          (s := { s with nrGroups := s.sb.nrGroups.toNat, heap := fun k => s.heap (k + 1) }) rfl _),
          run_bind_some rfl, run_bind_some (kmalloc_run _)]
        dsimp only
        cases bitmapHeap : grants (s.heap 1) (8 * s.sb.nrGroups.toNat) with
        | true =>
            rw [if_neg (by decide)]
            exact ⟨true, _, rfl, by simp only [desc, and_self], fun _ => by dsimp only⟩
        | false =>
            rw [if_pos (by decide)]
            exact ⟨false, _, rfl, by simp only [Bool.false_eq_true, and_false], by simp⟩
    | false =>
        rw [if_pos (by decide)]
        exact ⟨false, _, rfl, by simp only [Bool.false_eq_true, false_and, and_false], by simp⟩
  · rw [if_pos desc]
    exact ⟨false, _, rfl, by simp only [desc, false_and, Bool.false_eq_true], by simp⟩

theorem mount_run (unmounted : s.mounted = false)
    (reads : ∀ b, BlockStore.readBlock b (BlockStore.cacheRewind (BlockStore.cacheClear s.dev)) = some (blk b)) :
    swiftfs2Mount.run s = some (0, s') ↔
      ∃ sb, Mountable blk s.heap sb ∧
        s' = mountState (BlockStore.cacheRewind (BlockStore.cacheClear s.dev)) blk s.heap sb := by
  unfold swiftfs2Mount
  rw [run_bind_some (x := get) (s := s) rfl, unmounted]
  simp only [Bool.false_eq_true, if_false]
  rw [run_bind_some (s := s) rfl, run_bind_some (readBlock_run reads
      (s := { s with dev := BlockStore.cacheRewind (BlockStore.cacheClear s.dev), fds := fun _ => .zero }) rfl 0), run_bind_some rfl]
  have failed {t : FsState σ} (bad : ∀ sb, ¬ Mountable blk s.heap sb) : (pure (-1) : FsM σ Int).run t = some (0, s') ↔
      ∃ sb, Mountable blk s.heap sb ∧
        s' = mountState (BlockStore.cacheRewind (BlockStore.cacheClear s.dev)) blk s.heap sb := by
    refine ⟨fun h => ?_, fun ⟨sb, ok, _⟩ => (bad sb ok).elim⟩
    have := congrArg Prod.fst (Option.some.inj h)
    cases this
  by_cases magic : (Super.ofBlock (blk 0)).magic = SwiftBSD.Fs.magic
  · rw [if_neg (not_not_intro magic)]
    by_cases size : (Super.ofBlock (blk 0)).blockSize = 4096
    · rw [if_neg (not_not_intro size)]
      obtain ⟨ok, t, run, checks, state⟩ := loadGroupDescriptors_run
        (s := { s with
          dev := BlockStore.cacheRewind (BlockStore.cacheClear s.dev)
          fds := fun _ => .zero
          sb := Super.ofBlock (blk 0) }) reads
      rw [run_bind_some run]
      cases ok with
      | true =>
          obtain ⟨desc, descHeap, bitmapHeap⟩ := checks.mp rfl
          rw [if_neg (by decide), run_bind_some rfl, state rfl]
          constructor
          · intro h
            have last := congrArg Prod.snd (Option.some.inj h)
            dsimp only at last
            exact ⟨_, ⟨rfl, magic, size, desc, descHeap, bitmapHeap⟩, by rw [← last, mountState]⟩
          · rintro ⟨sb, ok, rfl⟩
            rw [← ok.super, mountState, StateT.run_pure]
            dsimp only
            rfl
      | false =>
          rw [if_pos (by decide)]
          refine failed fun sb ok => ?_
          obtain rfl := ok.super
          cases checks.mpr ⟨ok.desc, ok.descHeap, ok.bitmapHeap⟩
    · rw [if_pos size]
      exact failed fun sb ok => size (ok.super ▸ ok.size)
  · rw [if_pos magic]
    exact failed fun sb ok => magic (ok.super ▸ ok.magic)

end Mount

/-- Metadata and journal. The journal of a volume with more blocks than block numbers is out of reach. -/
def Geometry.Reserved (G : Geometry) (b : Nat) : Prop :=
  Meta G.nrGroups b ∨ (b < 2 ^ 32 ∧ G.journalBlock ≤ b ∧ b < G.journalBlock + 8192)

theorem bmod_natCast {x m : Nat} (h : x % m < (m + 1) / 2) : Int.bmod x m = (x % m : Nat) := by
  unfold Int.bmod
  rw [if_pos (by omega)]
  rfl

section Mounted
variable {sizeMb d : Nat} {img : Disk}

theorem Formatted.marked (formatted : Formatted (Geometry.ofMb sizeMb) d img) {b : Nat}
    (h : Geometry.Reserved (Geometry.ofMb sizeMb) b) :
    b < 32768 * (Geometry.ofMb sizeMb).nrGroups ∧ Geometry.Marked (Geometry.ofMb sizeMb) (b / 32768) (b % 32768) := by
  have fine := formatted.fine
  have positive := fine.positive
  have desc := fine.desc
  have few := descBlocks_le fine.bound
  rcases h with isMeta | ⟨small, lower, upper⟩
  · refine ⟨?_, .inl ?_⟩
    · unfold Meta at isMeta
      omega
    · unfold Meta at isMeta
      unfold SwiftBSD.Fs.Geometry.usedBlocks
      split <;> omega
  · have last : SwiftBSD.Fs.Geometry.isLast (Geometry.ofMb sizeMb) ((Geometry.ofMb sizeMb).nrGroups - 1) = true := by
      simp only [SwiftBSD.Fs.Geometry.isLast, beq_iff_eq]
      omega
    have start := formatted.journal _ last
    have position : b < 32768 * (Geometry.ofMb sizeMb).nrGroups ∧ b / 32768 = (Geometry.ofMb sizeMb).nrGroups - 1 ∧
        Geometry.journalStart (Geometry.ofMb sizeMb) ((Geometry.ofMb sizeMb).nrGroups - 1) +
          ((Geometry.ofMb sizeMb).nrGroups - 1) * 32768 = (Geometry.ofMb sizeMb).journalBlock := by
      have bound := fine.bound
      clear desc few last fine
      simp only [Geometry.journalStart, SwiftBSD.Fs.Geometry.groupStart, Geometry.ofMb] at *
      have small : (if sizeMb < 1 then 1 else sizeMb) * 1048576 % 2 ^ 64 / 4096 < 2 ^ 52 := by omega
      generalize (if sizeMb < 1 then 1 else sizeMb) * 1048576 % 2 ^ 64 / 4096 = N at *
      omega
    obtain ⟨inside, group, first⟩ := position
    refine ⟨inside, .inr ?_⟩
    rw [group]
    exact ⟨last, by omega, by omega⟩

/-- The state after a successful mount of a fresh image. -/
structure Booted (G : Geometry) (d : Nat) (s : FsState Disk) : Prop where
  layout : Layout s
  groups : s.nrGroups = G.nrGroups
  inode : ∀ i < 4096 * G.nrGroups, inodeAt s i = if i = 1 then rootInode d else .zero
  used : ∀ b < 32768 * G.nrGroups, usedAt s b = decide (Geometry.Marked G (b / 32768) (b % 32768) ∨ b = d)
  root : s.dev.block d = rootDirBlock
  gd : ∀ g < G.nrGroups, s.gd g = Geometry.gds G g
  fds : s.fds = fun _ => .zero

theorem superblock_nrGroups (bound : (Geometry.ofMb sizeMb).nrGroups ≤ 65536) :
    (Geometry.ofMb sizeMb).superblock.nrGroups = ((Geometry.ofMb sizeMb).nrGroups : Nat) := by
  have numBlocks : (Geometry.ofMb sizeMb).superblock.numBlocks.toNat = (Geometry.ofMb sizeMb).numBlocks := by
    simp only [SwiftBSD.Fs.Geometry.superblock, UInt64.toNat_ofNat', Geometry.ofMb]
    omega
  unfold Super.nrGroups
  rw [numBlocks]
  have blocks : ((Geometry.ofMb sizeMb).numBlocks + 32767) % 2 ^ 64 / 32768 % 2 ^ 32 = (Geometry.ofMb sizeMb).nrGroups := by
    simp only [Geometry.ofMb]
    omega
  rw [bmod_natCast (by omega), blocks]

theorem super_descBlocks {sb : Super} {n : Nat} (groups : sb.nrGroups = n) (bound : n ≤ 131072) :
    sb.descBlocks = (descBlocks n : Nat) := by
  unfold Super.descBlocks
  rw [groups]
  have small : n * 32 % 2 ^ 32 = n * 32 := by omega
  have product : ((n : Int) * 32).bmod (2 ^ 32) = (n * 32 : Nat) := by
    have := bmod_natCast (x := n * 32) (m := 2 ^ 32) (by omega)
    rw [small] at this
    exact_mod_cast this
  rw [product, Int.tdiv_eq_ediv_of_nonneg (by omega)]
  unfold descBlocks
  omega

theorem Geometry.gds_blocks {G : Geometry} {g : Nat} (fine : Geometry.Fine G) (hg : g < G.nrGroups) :
    (Geometry.gds G g).blockBitmapBlock.toNat = bitmapBlock G.nrGroups g ∧
      (Geometry.gds G g).inodeTableBlock.toNat = bitmapBlock G.nrGroups g + 1 := by
  have small := bitmapBlock_lt fine.bound hg
  have same : (Geometry.gds G g).blockBitmapBlock = (G.gd g).blockBitmapBlock ∧
      (Geometry.gds G g).inodeTableBlock = (G.gd g).inodeTableBlock := by
    unfold Geometry.gds
    by_cases zero : g = 0
    · subst zero
      rw [Function.update_self]
      exact ⟨rfl, rfl⟩
    · rw [Function.update_of_ne zero]
      exact ⟨rfl, rfl⟩
  rw [same.1, same.2]
  simp only [SwiftBSD.Fs.Geometry.gd, hg, if_true, UInt32.toNat_ofNat', fine.bitmapBlock hg]
  omega

theorem Formatted.booted_mountState {G : Geometry} (formatted : Formatted G d img) (heap : Nat → Bool)
    (groups : G.superblock.nrGroups = (G.nrGroups : Nat)) :
    Booted G d (mountState img img.block heap G.superblock) := by
  have fine := formatted.fine
  have descs := super_descBlocks groups fine.bound
  have nrGroups : (mountState img img.block heap G.superblock).nrGroups = G.nrGroups := by
    simp only [mountState, groups, Int.toNat_natCast]
  have gd (g : Nat) (hg : g < G.nrGroups) : (mountState img img.block heap G.superblock).gd g = Geometry.gds G g := by
    simp only [mountState, descs, Int.toNat_natCast]
    apply gd_ofBlocks_toBlock
    have inside : g / 128 < descBlocks G.nrGroups := by unfold descBlocks; omega
    rw [if_pos inside]
    exact formatted.desc _ (by rw [fine.desc]; exact inside)
  have desc : (mountState img img.block heap G.superblock).sb.groupDescCount.toNat = descBlocks G.nrGroups := by
    have := descBlocks_le fine.bound
    simp only [mountState, SwiftBSD.Fs.Geometry.superblock, UInt32.toNat_ofNat', fine.desc]
    omega
  refine ⟨⟨rfl, rfl, rfl, ?_, ?_, ?_, ?_, ?_, ?_⟩, nrGroups, ?_, ?_, formatted.root, gd, rfl⟩
  · rw [nrGroups]
    exact groups
  · rw [nrGroups]
    exact fine.positive
  · rw [nrGroups]
    exact fine.bound
  · rw [desc, nrGroups]
  · intro g hg
    rw [nrGroups] at hg ⊢
    rw [gd g hg, (Geometry.gds_blocks fine hg).1]
  · intro g hg
    rw [nrGroups] at hg ⊢
    rw [gd g hg, (Geometry.gds_blocks fine hg).2]
  · intro i hi
    rw [inodeAt, nrGroups]
    exact formatted.table i hi
  · intro b hb
    have split : b / 32768 * 32768 + b % 32768 = b := by omega
    have := formatted.bitmap (b / 32768) (by omega) (b % 32768) (by omega)
    rw [split] at this
    rw [usedAt, bitmapOf, nrGroups]
    exact this

theorem mount_state (super : img.block 0 = (Geometry.ofMb sizeMb).superblock.toBlock) {heap : Nat → Bool} {s : FsState Disk}
    (mount : swiftfs2Mount.run (FsState.boot img heap) = some (0, s)) : s = mountState img img.block heap (Geometry.ofMb sizeMb).superblock := by
  obtain ⟨sb, ok, rfl⟩ := (@mount_run _ _ (FsState.boot img heap) _ img.block rfl fun _ => rfl).mp mount
  obtain rfl : (Geometry.ofMb sizeMb).superblock = sb := by
    rw [← ok.super, super, super_ofBlock_toBlock]
  rfl

theorem Formatted.booted (formatted : Formatted (Geometry.ofMb sizeMb) d img)
    (bound : (Geometry.ofMb sizeMb).nrGroups ≤ 65536) {heap : Nat → Bool} {s : FsState Disk}
    (mount : swiftfs2Mount.run (FsState.boot img heap) = some (0, s)) :
    Booted (Geometry.ofMb sizeMb) d s ∧ ∀ k, s.heap k = heap (k + 2) := by
  obtain rfl := mount_state formatted.super mount
  exact ⟨formatted.booted_mountState heap (superblock_nrGroups bound), fun _ => rfl⟩

theorem mount_super (super : img.block 0 = (Geometry.ofMb sizeMb).superblock.toBlock) (fine : Geometry.Fine (Geometry.ofMb sizeMb))
    (bound : (Geometry.ofMb sizeMb).nrGroups ≤ 32640) (heap : Nat → Bool) (willing : heap 0 = true ∧ heap 1 = true) :
    ∃ s, swiftfs2Mount.run (FsState.boot img heap) = some (0, s) := by
  have groups := @superblock_nrGroups sizeMb (by omega)
  have descs := super_descBlocks groups (by omega)
  refine ⟨_, (@mount_run _ _ (FsState.boot img heap) _ img.block rfl fun _ => rfl).mpr
    ⟨(Geometry.ofMb sizeMb).superblock, ⟨?_, rfl, rfl, ?_, ?_, ?_⟩, rfl⟩⟩
  · rw [super, super_ofBlock_toBlock]
  · have count : (Geometry.ofMb sizeMb).superblock.groupDescCount.toNat = descBlocks (Geometry.ofMb sizeMb).nrGroups := by
      have := descBlocks_le fine.bound
      simp only [SwiftBSD.Fs.Geometry.superblock, UInt32.toNat_ofNat', fine.desc]
      omega
    have := descBlocks_le fine.bound
    rw [descs, count, bmod_natCast (by omega), Nat.mod_eq_of_lt (by omega)]
  · rw [descs, Int.toNat_natCast]
    simp only [grants, FsState.boot, willing.1, Bool.true_and, decide_eq_true_eq]
    unfold descBlocks
    omega
  · rw [groups, Int.toNat_natCast]
    simp only [grants, FsState.boot, willing.2, Bool.true_and, decide_eq_true_eq]
    omega

def rootDirs (i : Nat) : List (List Rec) := if i = 1 then [newDir 1 1] else []

theorem chain_rootDirBlock : Chain rootDirBlock 0 4096 (newDir 1 1) := by
  refine .cons (by decide) ⟨by decide, fun _ => by decide⟩ (.cons (by decide) ⟨by decide, fun _ => by decide⟩
    (.cons (by decide) (fits_free (by decide)) (.nil _)))

theorem fileBlock_rootInode (data : Nat → Block) (small : d < 2 ^ 32) (l : Nat) :
    fileBlock data (rootInode d) l = if l = 0 then d else 0 := by
  unfold fileBlock
  by_cases zero : l = 0
  · subst zero
    simp [rootInode]
    omega
  · rw [if_neg zero]
    split
    · next h =>
        have other : (⟨l, h⟩ : Fin 12) ≠ 0 := fun same => zero (by simpa using congrArg Fin.val same)
        simp [rootInode, Function.update_of_ne other, Inode.zero]
    · exact if_neg fun h => h.2 rfl

/-- The volume of a state, with what is known about the heap. -/
def volWith (roomy : Bool) (s : FsState Disk) : Vol := { volOf s with roomy }

theorem rep_volWith {s : FsState Disk} (layout : Layout s) {roomy : Bool} (heap : roomy = true → ∀ k, s.heap k = true) :
    Rep s (volWith roomy s) :=
  { rep_volOf layout with roomy := heap }

theorem slot_rootInode (data : Nat → Block) (small : d < 2 ^ 32) (k : Nat) :
    slot data (rootInode d) k = if k = 0 then d else 0 := by
  unfold slot
  split
  · next h => rw [if_neg (by omega)]; rfl
  · exact fileBlock_rootInode data small k

theorem Booted.slots {G : Geometry} {s : FsState Disk} (booted : Booted G d s) (small : d < 2 ^ 32) (roomy : Bool)
    (p : Nat × Nat) (h : (volWith roomy s).slots p ≠ 0) : p = (1, 0) ∧ (volWith roomy s).slots p = d := by
  have groups := booted.groups
  unfold Vol.slots at h ⊢
  split at h
  · next inside =>
      have hi : p.1 < 4096 * G.nrGroups := by
        simpa [Vol.inodes, volWith, volOf, groups] using inside
      have inode : (volWith roomy s).inode p.1 = _ := booted.inode p.1 hi
      rw [if_pos inside]
      rw [inode] at h ⊢
      by_cases root : p.1 = 1
      · rw [if_pos root, slot_rootInode _ small] at h ⊢
        split at h
        · next first => exact ⟨Prod.ext root first, if_pos first⟩
        · exact (h rfl).elim
      · rw [if_neg root, slot_bare (fun _ => rfl) rfl] at h
        exact (h rfl).elim
  · exact (h rfl).elim

theorem Booted.consistent {s : FsState Disk} (formatted : Formatted (Geometry.ofMb sizeMb) d img)
    (booted : Booted (Geometry.ofMb sizeMb) d s) {K : UInt16 → Prop} (isDir : ∀ x : Inode, x.isDir = true → K x.mode)
    (roomy : Bool) : Consistent (Geometry.Reserved (Geometry.ofMb sizeMb)) K (volWith roomy s) rootDirs := by
  have fine := formatted.fine
  have positive := fine.positive
  have bound := fine.bound
  have inside := formatted.inside
  have marked {b : Nat} (h : Geometry.Reserved (Geometry.ofMb sizeMb) b) := formatted.marked h
  set G := Geometry.ofMb sizeMb with hG
  have groups : (volWith roomy s).groups = G.nrGroups := booted.groups
  have inodes : (volWith roomy s).inodes = 4096 * G.nrGroups := by rw [Vol.inodes, groups]
  have blocks : (volWith roomy s).blocks = 32768 * G.nrGroups := by rw [Vol.blocks, groups]
  have small : d < 2 ^ 32 := by omega
  have used {b : Nat} (h : b < 32768 * G.nrGroups) : (volWith roomy s).used b = _ := booted.used b h
  have rootUsed : (volWith roomy s).used d = true := by
    rw [used inside]
    simp
  have inode {i : Nat} (hi : i < (volWith roomy s).inodes) : (volWith roomy s).inode i = _ :=
    booted.inode i (by rwa [inodes] at hi)
  constructor
  case positive => rw [groups]; exact positive
  case bound => rw [groups]; exact bound
  case own =>
    refine ⟨⟨fun p hp => ?_, fun p hp => ?_, fun p q hp same => ?_, fun b hb => ?_⟩, fun b hb => ?_⟩
    · rw [(booted.slots small roomy p hp).2]
      exact ⟨by rw [blocks]; exact inside, rootUsed⟩
    · rw [(booted.slots small roomy p hp).2]
      exact fun reserved => formatted.fresh (marked reserved).2
    · rw [(booted.slots small roomy p hp).1, (booted.slots small roomy q (same ▸ hp)).1]
    · obtain ⟨hb, bit⟩ := marked hb
      refine ⟨by rw [blocks]; exact hb, ?_⟩
      rw [used hb]
      simp [bit]
    · rw [groups] at hb
      exact .inl hb
  case double =>
    intro i hi
    rw [inode hi]
    split <;> rfl
  case dirs =>
    intro i hi _
    rw [inode hi]
    unfold rootDirs
    split
    · have nonzero : d ≠ 0 := by
        have := not_meta_zero_lt (Geometry.not_meta fine formatted.fresh)
        omega
      refine ⟨by simp, fun k rs h => ?_, fun k h => ?_, fun h => (h rfl).elim, fun rs hrs r hr => ?_⟩
      · obtain ⟨rfl, rfl⟩ : k = 0 ∧ newDir 1 1 = rs := by
          cases k with
          | zero => simpa using h
          | succ k => simp at h
        rw [fileBlock_rootInode _ small, if_pos rfl]
        refine ⟨nonzero, ?_⟩
        have : (volWith roomy s).data d = rootDirBlock := booted.root
        rw [this]
        exact chain_rootDirBlock
      · rw [fileBlock_rootInode _ small, if_neg (by simp at h; omega)]
      · obtain rfl : rs = newDir 1 1 := by simpa using hrs
        rw [inodes]
        simp only [newDir, List.mem_cons, List.not_mem_nil, or_false] at hr
        rcases hr with rfl | rfl | rfl <;> simp [Rec.free] <;> omega
    · exact directory_empty (fun _ => rfl) rfl
  case isDir => exact isDir
  case fds =>
    intro fd
    have : (volWith roomy s).fds fd = .zero := congrFun booted.fds fd
    rw [this, inodes]
    simp only [Fd.zero]
    omega

theorem mkfs_128 : ∃ img s d, mkfs 128 = some img ∧ swiftfs2Mount.run (FsState.boot img fun _ => true) = some (0, s) ∧
    (∀ k, s.heap k = true) ∧ Formatted (Geometry.ofMb 128) d img ∧ Booted (Geometry.ofMb 128) d s := by
  have journal (g : Nat) (last : (Geometry.ofMb 128).isLast g = true) :
      Geometry.journalStart (Geometry.ofMb 128) g + 8192 ≤ 32768 := by
    obtain rfl : g = 0 := by simpa [SwiftBSD.Fs.Geometry.isLast, Geometry.ofMb] using last
    decide
  obtain ⟨img, made⟩ := mkfs_isSome (by decide) (by decide) journal
  obtain ⟨d, formatted⟩ := mkfs_formatted (by decide) made
  obtain ⟨s, mounted⟩ := mount_super formatted.super formatted.fine (by decide) (fun _ => true) ⟨rfl, rfl⟩
  obtain ⟨booted, heap⟩ := formatted.booted (by decide) mounted
  exact ⟨img, s, d, made, mounted, heap, formatted, booted⟩

end Mounted

end SwiftBSD.Proof.Fs
