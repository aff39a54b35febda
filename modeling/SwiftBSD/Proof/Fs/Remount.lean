import SwiftBSD.Proof.Fs.Mount

namespace SwiftBSD.Proof.Fs
open Lib SwiftBSD.Fs

/-- A store over a disk that the uncached transfers reach directly. -/
structure Raw (σ : Type) [BlockStore σ] (raw : σ → Nat → Block) : Prop where
  read : ∀ b d, BlockStore.readBlock b d = some (raw d b)
  write : ∀ b v d, raw (BlockStore.writeBlock b v d) = Function.update (raw d) b v
  clear : ∀ d : σ, raw (BlockStore.cacheClear d) = raw d
  rewind : ∀ d : σ, raw (BlockStore.cacheRewind d) = raw d

theorem raw_disk : Raw Disk Disk.block := ⟨fun _ _ => rfl, fun _ _ _ => rfl, fun _ => rfl, fun _ => rfl⟩

theorem raw_cache : Raw Cache Cache.disk := ⟨fun _ _ => rfl, fun _ _ _ => rfl, fun _ => rfl, fun _ => rfl⟩

section Sync
variable {σ : Type} [BlockStore σ] {raw : σ → Nat → Block} {s t u : FsState σ} {d : σ}

/-- The disk holds what the state `s` keeps in memory, and the blocks of `old` otherwise. -/
structure Synced (s : FsState σ) (old new : Nat → Block) : Prop where
  super : new 0 = s.sb.toBlock
  desc : ∀ k < descBlocks s.nrGroups, new (1 + k) = Gd.toBlock s.gd k
  bitmap : ∀ g < s.nrGroups, ∀ bm, s.bitmaps g = some bm → new (bitmapBlock s.nrGroups g) = bm
  other : ∀ b, descBlocks s.nrGroups < b → (∀ g < s.nrGroups, s.bitmaps g ≠ none → b ≠ bitmapBlock s.nrGroups g) →
    new b = old b

theorem writeDescriptors_run (store : Raw σ raw) (n : Nat) (s : FsState σ) :
    ∃ d, (writeDescriptors n).run s = some ((), { s with dev := d }) ∧
      ∀ b, raw d b = if 1 ≤ b ∧ b ≤ n then Gd.toBlock s.gd (b - 1) else raw s.dev b := by
  induction n with
  | zero => exact ⟨s.dev, rfl, fun b => (if_neg (by omega)).symm⟩
  | succ n ih =>
      obtain ⟨d, first, blocks⟩ := ih
      refine ⟨BlockStore.writeBlock (1 + n) (Gd.toBlock s.gd n) d, ?_, fun b => ?_⟩
      · unfold writeDescriptors
        rw [run_bind_some first]
        rfl
      · rw [store.write, Function.update_apply, blocks]
        by_cases here : b = 1 + n
        · subst here
          rw [if_pos rfl, if_pos (by omega), Nat.add_sub_cancel_left]
        · rw [if_neg here]
          refine if_congr ?_ rfl rfl
          omega

theorem syncBitmaps_run (store : Raw σ raw) (layout : Layout s) {n : Nat} (hn : n ≤ s.nrGroups) :
    ∃ d, (syncBitmaps n).run s = some ((), { s with dev := d }) ∧
      (∀ g < n, ∀ bm, s.bitmaps g = some bm → raw d (bitmapBlock s.nrGroups g) = bm) ∧
      ∀ b, (∀ g < n, s.bitmaps g ≠ none → b ≠ bitmapBlock s.nrGroups g) → raw d b = raw s.dev b := by
  induction n with
  | zero => exact ⟨s.dev, rfl, fun g hg => by omega, fun _ _ => rfl⟩
  | succ n ih =>
      obtain ⟨d, first, bitmaps, others⟩ := ih (by omega)
      unfold syncBitmaps
      rw [run_bind_some first]
      cases loaded : s.bitmaps n with
      | none =>
          refine ⟨d, ?_, fun g hg bm present => ?_, fun b away => others b fun g hg => away g (by omega)⟩
          · simp [bitmapSync, loaded]
          · by_cases same : g = n
            · rw [same, loaded] at present
              cases present
            · exact bitmaps g (by omega) bm present
      | some bm =>
          refine ⟨BlockStore.writeBlock (bitmapBlock s.nrGroups n) bm d, ?_, fun g hg bm' present => ?_, fun b away => ?_⟩
          · simp [bitmapSync, loaded, writeBlock, layout.bitmap n (by omega)]
          · rw [store.write, Function.update_apply]
            by_cases same : g = n
            · subst same
              rw [loaded] at present
              rw [if_pos rfl, Option.some.inj present]
            · rw [if_neg fun h => same (bitmapBlock_inj layout.bound h)]
              exact bitmaps g (by omega) bm' present
          · rw [store.write, Function.update_of_ne (away n (by omega) (by rw [loaded]; exact Option.some_ne_none bm))]
            exact others b fun g hg => away g (by omega)

theorem sync_run (store : Raw σ raw) (layout : Layout s) :
    ∃ d, swiftfs2Sync.run s = some (0, { s with fds := cleanFds s.fds, dev := d }) ∧
      Synced s (raw (BlockStore.cacheFlushAll s.dev)) (raw d) := by
  have bound := layout.bound
  have few := descBlocks_le bound
  let s₁ : FsState σ := { s with fds := cleanFds s.fds, dev := BlockStore.cacheFlushAll s.dev }
  let s₂ : FsState σ := { s₁ with dev := BlockStore.writeBlock 0 s.sb.toBlock s₁.dev }
  obtain ⟨d₃, descs, blocks⟩ := writeDescriptors_run store s.sb.groupDescCount.toNat s₂
  have layout₃ : Layout { s₂ with dev := d₃ } := { layout with }
  obtain ⟨d, bitmaps, loaded, others⟩ := syncBitmaps_run store layout₃ (Nat.le_refl _)
  have high {b : Nat} (h : descBlocks s.nrGroups < b) : raw d₃ b = raw (BlockStore.cacheFlushAll s.dev) b := by
    rw [blocks, if_neg (by rw [layout.desc]; omega), store.write, Function.update_of_ne (by omega)]
  have low {b : Nat} (h : b ≤ descBlocks s.nrGroups) : raw d b = raw d₃ b := by
    refine others b fun g _ _ same => ?_
    have above : descBlocks s.nrGroups < bitmapBlock s.nrGroups g := bitmapBlock_gt bound g
    rw [show bitmapBlock s.nrGroups g = b from same.symm] at above
    omega
  refine ⟨d, ?_, ⟨?_, fun k hk => ?_, loaded, fun b hb away => (others b away).trans (high hb)⟩⟩
  · unfold swiftfs2Sync
    rw [run_bind_some (x := get) (s := s) rfl, if_neg (by rw [layout.mounted]; decide), run_bind_some (s := s) rfl,
      run_bind_some (x := get) (s := s₁) rfl, run_bind_some (s := s₁) rfl, run_bind_some descs, run_bind_some bitmaps]
    rfl
  · rw [low (Nat.zero_le _), blocks, if_neg (by omega), store.write, Function.update_self]
  · rw [low (by omega), blocks, if_pos (by rw [layout.desc]; omega), Nat.add_sub_cancel_left]

theorem mount_synced (store : Raw σ raw) (layout : Layout s) {old : Nat → Block} (synced : Synced s old (raw t.dev))
    (unmounted : t.mounted = false) (mount : swiftfs2Mount.run t = some (0, u)) :
    u.sb = s.sb ∧ u.nrGroups = s.nrGroups ∧ (∀ g < s.nrGroups, u.gd g = s.gd g) ∧ (∀ g, u.bitmaps g = none) ∧
      u.fds = (fun _ => .zero) ∧ u.dev = BlockStore.cacheRewind (BlockStore.cacheClear t.dev) ∧ u.mounted = true := by
  have reads (b : Nat) : BlockStore.readBlock b (BlockStore.cacheRewind (BlockStore.cacheClear t.dev)) = some (raw t.dev b) := by
    rw [store.read, store.rewind, store.clear]
  obtain ⟨sb, ok, rfl⟩ := (mount_run unmounted reads).mp mount
  obtain rfl : s.sb = sb := by rw [← ok.super, synced.super, super_ofBlock_toBlock]
  have groups : s.sb.nrGroups.toNat = s.nrGroups := by rw [layout.count, Int.toNat_natCast]
  have descs := super_descBlocks layout.count layout.bound
  simp only [mountState, groups, descs, Int.toNat_natCast]
  refine ⟨trivial, trivial, fun g hg => ?_, fun _ => trivial, trivial, trivial, trivial⟩
  apply gd_ofBlocks_toBlock
  have inside : g / 128 < descBlocks s.nrGroups := by unfold descBlocks; omega
  rw [if_pos inside]
  exact synced.desc _ inside

end Sync

/-- The volume after a sync and a mount by a fresh kernel. -/
def Vol.reboot (V : Vol) : Vol := { V with fds := fun _ => .zero, exhausted := false, roomy := false, answers := none }

theorem Rep.reboot {s s₁ u : FsState Disk} {V : Vol} {heap : Nat → Bool} (rep : Rep s V)
    (sync : swiftfs2Sync.run s = some (0, s₁)) (mount : swiftfs2Mount.run (FsState.boot s₁.dev heap) = some (0, u)) :
    Rep u V.reboot := by
  have layout := rep.layout
  have bound := layout.bound
  obtain ⟨d, run, synced⟩ := sync_run raw_disk layout
  obtain rfl : s₁ = _ := congrArg Prod.snd (Option.some.inj (sync.symm.trans run))
  obtain ⟨super, groups, gd, bitmaps, fds, dev, mounted⟩ := mount_synced (t := FsState.boot d heap) raw_disk layout synced rfl mount
  have block (b : Nat) : u.dev.block b = d.block b := by rw [dev]; rfl
  have kept {b : Nat} (high : descBlocks s.nrGroups < b) (away : ∀ g < s.nrGroups, b ≠ bitmapBlock s.nrGroups g) :
      u.dev.block b = s.dev.block b := (block b).trans (synced.other b high fun g hg _ => away g hg)
  have bitmap (g : Nat) (hg : g < s.nrGroups) : bitmapOf u g = bitmapOf s g := by
    rw [bitmapOf, bitmaps, bitmapOf, groups, Option.getD_none, block]
    cases loaded : s.bitmaps g with
    | some bm => exact synced.bitmap g hg bm loaded
    | none =>
        refine synced.other _ (bitmapBlock_gt bound g) fun h hh present same => ?_
        rw [bitmapBlock_inj bound same] at loaded
        exact present loaded
  have bits {b : Nat} (hb : b < V.blocks) : b / 32768 < s.nrGroups := by
    rw [rep.groups]
    simp only [Vol.blocks] at hb
    omega
  constructor
  case layout =>
    refine ⟨mounted, ?_, ?_, ?_, ?_, ?_, ?_, ?_, ?_⟩
    · rw [super]; exact layout.magic
    · rw [super]; exact layout.blockSize
    · rw [super, groups]; exact layout.count
    · rw [groups]; exact layout.positive
    · rw [groups]; exact layout.bound
    · rw [super, groups]; exact layout.desc
    · intro g hg
      rw [groups] at hg ⊢
      rw [gd g hg]
      exact layout.bitmap g hg
    · intro g hg
      rw [groups] at hg ⊢
      rw [gd g hg]
      exact layout.table g hg
  case groups => exact groups.trans rep.groups
  case inode =>
    intro i hi
    rw [← show inodeAt s i = V.reboot.inode i from rep.inode i hi, inodeAt, inodeAt, groups,
      kept (inodeBlock_gt bound i) fun g _ => inodeBlock_ne_bitmapBlock bound]
  case used =>
    intro b hb
    rw [usedAt, bitmap _ (bits hb)]
    exact rep.used b hb
  case data =>
    intro b hb
    rw [← show s.dev.block b = V.reboot.data b from rep.data b hb]
    have notMeta : ¬ Meta s.nrGroups b := by rw [rep.groups]; exact hb
    refine kept ?_ fun g hg same => notMeta (same ▸ meta_bitmapBlock bound hg)
    unfold Meta at notMeta
    omega
  case fds => exact fds
  case freeBlocks => rw [super]; exact rep.freeBlocks
  case freeInodes => rw [super]; exact rep.freeInodes
  case groupFreeBlocks =>
    intro g hg
    rw [gd g (by rw [rep.groups]; exact hg)]
    exact rep.groupFreeBlocks g hg
  case groupFreeInodes =>
    intro g hg
    rw [gd g (by rw [rep.groups]; exact hg)]
    exact rep.groupFreeInodes g hg
  case exhausted => simp [Vol.reboot]
  case roomy => simp [Vol.reboot]
  case answers => simp [Vol.reboot]

theorem Consistent.reboot {R : Nat → Prop} {K : UInt16 → Prop} {V : Vol} {D : Nat → List (List Rec)}
    (c : Consistent R K V D) : Consistent R K V.reboot D where
  positive := c.positive
  bound := c.bound
  own := ⟨c.own.owns, c.own.reserved⟩
  double := c.double
  dirs := by
    intro i hi hK
    exact (c.dirs i hi hK).congr rfl (fun _ => rfl) rfl fun _ _ => rfl
  isDir := c.isDir
  fds := fun _ => Nat.lt_of_le_of_lt (Nat.zero_le _) c.root

end SwiftBSD.Proof.Fs
