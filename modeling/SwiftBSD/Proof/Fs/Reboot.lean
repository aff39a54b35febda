import SwiftBSD.Proof.Fs.Transparent

namespace SwiftBSD.Proof.Fs
open Lib SwiftBSD.Fs SwiftBSD.Fs.Io

variable {L : Nat → Block} {heap : Nat → Bool} {V : Vol}

section Mounts
variable {σ τ : Type} [BlockStore σ] [BlockStore τ] {raw : σ → Nat → Block} {raw' : τ → Nat → Block} {d : σ} {e : τ} {u : FsState σ}

theorem raw_reads (store : Raw σ raw) (d : σ) (b : Nat) :
    BlockStore.readBlock b (BlockStore.cacheRewind (BlockStore.cacheClear d)) = some (raw d b) := by
  rw [store.read, store.rewind, store.clear]

omit [BlockStore σ] [BlockStore τ] in
theorem mountState_onto (d : σ) (e : τ) (blk : Nat → Block) (heap : Nat → Bool) (sb : Super) :
    FsState.onto (mountState d blk heap sb) e = mountState e blk heap sb := by
  unfold FsState.onto mountState
  dsimp only

theorem boot_mount (store : Raw σ raw) : swiftfs2Mount.run (FsState.boot d heap) = some (0, u) ↔
    ∃ sb, Mountable (raw d) heap sb ∧ u = mountState (BlockStore.cacheRewind (BlockStore.cacheClear d)) (raw d) heap sb :=
  mount_run (s := FsState.boot d heap) rfl (raw_reads store d)

theorem mount_onto (store : Raw σ raw) (store' : Raw τ raw') (same : raw d = raw' e)
    (mount : swiftfs2Mount.run (FsState.boot d heap) = some (0, u)) :
    swiftfs2Mount.run (FsState.boot e heap) = some (0, FsState.onto u (BlockStore.cacheRewind (BlockStore.cacheClear e))) := by
  obtain ⟨sb, ok, rfl⟩ := (boot_mount store).mp mount
  rw [same] at ok ⊢
  rw [mountState_onto]
  exact (boot_mount store').mpr ⟨sb, ok, rfl⟩

theorem mount_dev (store : Raw σ raw) (mount : swiftfs2Mount.run (FsState.boot d heap) = some (0, u)) :
    u.dev = BlockStore.cacheRewind (BlockStore.cacheClear d) := by
  obtain ⟨sb, -, rfl⟩ := (boot_mount store).mp mount
  rfl

omit [BlockStore σ] [BlockStore τ] in
theorem Synced.unique {s : FsState σ} {t : FsState τ} {old new new' : Nat → Block} (onto : t = FsState.onto s t.dev)
    (synced : Synced s old new) (synced' : Synced t old new') : new = new' := by
  have super : t.sb = s.sb := by rw [onto]; rfl
  have groups : t.nrGroups = s.nrGroups := by rw [onto]; rfl
  have gd : t.gd = s.gd := by rw [onto]; rfl
  have bitmaps : t.bitmaps = s.bitmaps := by rw [onto]; rfl
  obtain ⟨super', desc', bitmap', other'⟩ := synced'
  rw [groups] at desc' bitmap' other'
  rw [super] at super'
  rw [gd] at desc'
  rw [bitmaps] at bitmap' other'
  funext b
  by_cases first : b = 0
  · rw [first, synced.super, super']
  by_cases low : b ≤ descBlocks s.nrGroups
  · obtain ⟨k, rfl⟩ : ∃ k, b = 1 + k := ⟨b - 1, by omega⟩
    rw [synced.desc k (by omega), desc' k (by omega)]
  by_cases loaded : ∃ g < s.nrGroups, s.bitmaps g ≠ none ∧ b = bitmapBlock s.nrGroups g
  · obtain ⟨g, hg, present, rfl⟩ := loaded
    obtain ⟨bm, here⟩ := Option.ne_none_iff_exists'.mp present
    rw [synced.bitmap g hg bm here, bitmap' g hg bm here]
  · have away : ∀ g < s.nrGroups, s.bitmaps g ≠ none → b ≠ bitmapBlock s.nrGroups g := fun g hg present same => loaded ⟨g, hg, present, same⟩
    rw [synced.other b (by omega) away, other' b (by omega) away]

end Mounts

theorem resolve_reboot (V : Vol) (D : Nat → List (List Rec)) (path : List UInt8) : resolve V.reboot D path = resolve V D path := by
  have walks : ∀ i cs, walk V.reboot D i cs = walk V D i cs := by
    intro i cs
    induction cs generalizing i with
    | nil => rfl
    | cons c cs ih =>
        unfold walk
        simp only [ih]
        rfl
  exact walks 1 _

/-- The volume that the calls see through the cache. -/
def viewed (s : FsState Cache) : FsState Disk := FsState.onto s (Disk.mk (cached s.dev))

theorem Stands.viewed {s : FsState Cache} (stands : Stands s.dev L) : viewed s = FsState.onto s (Disk.mk L) := by
  unfold Fs.viewed
  rw [funext stands.cached]

theorem stands_mounted (d : Cache) : Stands (BlockStore.cacheRewind (BlockStore.cacheClear d)) d.disk :=
  stands_empty (c := BlockStore.cacheRewind (BlockStore.cacheClear d)) fun _ => rfl

theorem Layout.onto {σ τ : Type} {s : FsState σ} (layout : Layout s) (d : τ) : Layout (FsState.onto s d) := { layout with }

theorem Layout.of_onto {σ τ : Type} {s : FsState σ} {d : τ} (layout : Layout (FsState.onto s d)) : Layout s := { layout with }

theorem reboot_viewed {s s₁ u : FsState Cache} (stands : Stands s.dev L) (layout : Layout (viewed s)) (sync : swiftfs2Sync.run s = some (0, s₁))
    (mount : swiftfs2Mount.run (FsState.boot s₁.dev heap) = some (0, u)) :
    Stands u.dev s₁.dev.disk ∧ ∃ e, swiftfs2Sync.run (viewed s) = some (0, e) ∧ swiftfs2Mount.run (FsState.boot e.dev heap) = some (0, viewed u) := by
  rw [stands.viewed] at layout ⊢
  obtain ⟨d, run, synced⟩ := sync_run raw_cache layout.of_onto
  obtain rfl : s₁ = _ := congrArg Prod.snd (Option.some.inj (sync.symm.trans run))
  have flush : BlockStore.cacheFlushAll s.dev = s.dev.cacheFlushAll := rfl
  rw [flush, funext stands.flushed] at synced
  obtain ⟨e, run', synced'⟩ := sync_run raw_disk layout
  have same : d.disk = e.block := synced.unique (t := FsState.onto s (Disk.mk L)) rfl synced'
  have mount' := mount_onto (e := e) raw_cache raw_disk same mount
  have stands' : Stands u.dev d.disk := by
    rw [mount_dev raw_cache mount]
    exact stands_mounted d
  refine ⟨stands', _, run', ?_⟩
  rw [stands'.viewed, same]
  exact mount'

/-- The call uses no pointer into the cache after its slot has gone to another block, and reads no bitmap from behind a modified copy. -/
def NoStale (s : FsState Cache) (c : Call) : Prop := ∃ r p, (c.exec.run (FsState.onto s (Pinned.mk s.dev))) = some (r, p)

/-- The calls that are made over the cache: each is `ok` on the volume that is seen. -/
def Checked (ok : FsState Disk → Call → Prop) (s : FsState Cache) (c : Call) : Prop := c ≠ .sync ∧ ok (viewed s) c ∧ NoStale s c

section Runs
variable {ok : FsState Disk → Call → Prop} {s₀ s t u : FsState Cache} {c : Call} {r : Result}

theorem checked_viewed {α : Type} {x : FsM Pinned α} {y : FsM Cache α} {z : FsM Disk α} {a a' : α} {p : FsState Pinned}
    (overCache : Alike False pinnedOverCache.Dev x y) (overDisk : Alike False pinnedOverDisk.Dev x z)
    (checked : x.run (FsState.onto s (Pinned.mk s.dev)) = some (a', p)) (stands : Stands s.dev L) (run : y.run s = some (a, u)) :
    (∃ M, Stands u.dev M) ∧ z.run (viewed s) = some (a, viewed u) := by
  have onCache : Agree False pinnedOverCache.Dev (FsState.onto s (Pinned.mk s.dev)) s := ⟨rfl, rfl, False.elim⟩
  obtain ⟨u', run', agree⟩ := overCache _ _ _ _ onCache checked
  obtain ⟨rfl, rfl⟩ := Prod.mk.inj (Option.some.inj (run'.symm.trans run))
  have onDisk : Agree False pinnedOverDisk.Dev (FsState.onto s (Pinned.mk s.dev)) (FsState.onto s (Disk.mk L)) := ⟨stands, rfl, False.elim⟩
  obtain ⟨d, run'', agree'⟩ := overDisk _ _ _ _ onDisk checked
  have stands' : Stands u'.dev d.dev.block := by
    rw [agree.dev]
    exact agree'.dev
  refine ⟨⟨_, stands'⟩, ?_⟩
  rw [stands.viewed, stands'.viewed, run'', agree'.same, agree.same]
  rfl

theorem checked_run {α : Type} {x : FsM Pinned α} {y : FsM Cache α} {a : α} {p : FsState Pinned}
    (overCache : Alike False pinnedOverCache.Dev x y) (checked : x.run (FsState.onto s (Pinned.mk s.dev)) = some (a, p)) :
    ∃ u, y.run s = some (a, u) := by
  have onCache : Agree False pinnedOverCache.Dev (FsState.onto s (Pinned.mk s.dev)) s := ⟨rfl, rfl, False.elim⟩
  obtain ⟨u, run, -⟩ := overCache _ _ _ _ onCache checked
  exact ⟨u, run⟩

theorem checked_after {α : Type} {x : FsM Pinned α} {y : FsM Cache α} {a a' : α} {p : FsState Pinned}
    (overCache : Alike False pinnedOverCache.Dev x y) (checked : x.run (FsState.onto s (Pinned.mk s.dev)) = some (a', p))
    (run : y.run s = some (a, u)) : FsState.onto u (Pinned.mk u.dev) = p := by
  have onCache : Agree False pinnedOverCache.Dev (FsState.onto s (Pinned.mk s.dev)) s := ⟨rfl, rfl, False.elim⟩
  obtain ⟨u', run', agree⟩ := overCache _ _ _ _ onCache checked
  obtain ⟨-, rfl⟩ := Prod.mk.inj (Option.some.inj (run'.symm.trans run))
  rw [agree.same, agree.dev]
  rfl

theorem NoStale.viewed (other : c ≠ .sync) (noStale : NoStale s c) (stands : Stands s.dev L) (run : c.exec.run s = some (r, u)) :
    (∃ M, Stands u.dev M) ∧ c.exec.run (viewed s) = some (r, viewed u) := by
  obtain ⟨r', p, checked⟩ := noStale
  exact checked_viewed (steady_pinnedOverCache.alike_exec other) (steady_pinnedOverDisk.alike_exec other) checked stands run

theorem NoStale.run (other : c ≠ .sync) (noStale : NoStale s c) : ∃ r u, c.exec.run s = some (r, u) := by
  obtain ⟨r, p, checked⟩ := noStale
  exact ⟨r, checked_run (steady_pinnedOverCache.alike_exec other) checked⟩

theorem reachBoot_viewed (stands : Stands s₀.dev L) (layouts : ∀ u, ReachBoot ok (viewed s₀) u → Layout u)
    (reach : ReachBoot (Checked ok) s₀ s) : (∃ M, Stands s.dev M) ∧ ReachBoot ok (viewed s₀) (viewed s) := by
  induction reach with
  | start => exact ⟨⟨L, stands⟩, .start⟩
  | call before admitted run ih =>
      obtain ⟨⟨M, stands'⟩, reach'⟩ := ih
      obtain ⟨other, okay, noStale⟩ := admitted
      obtain ⟨after, run'⟩ := noStale.viewed other stands' run
      exact ⟨after, .call reach' okay run'⟩
  | reboot before sync mount ih =>
      obtain ⟨⟨M, stands'⟩, reach'⟩ := ih
      obtain ⟨after, e, sync', mount'⟩ := reboot_viewed stands' (layouts _ reach') sync mount
      exact ⟨⟨_, after⟩, .reboot reach' sync' mount'⟩

theorem mounted_viewed {img : Disk} (mounted : swiftfs2Mount.run (FsState.boot (Cache.boot img) heap) = some (0, s)) :
    Stands s.dev img.block ∧ swiftfs2Mount.run (FsState.boot img heap) = some (0, viewed s) := by
  have stands : Stands s.dev img.block := by
    rw [mount_dev raw_cache mounted]
    exact stands_mounted (Cache.boot img)
  refine ⟨stands, ?_⟩
  rw [stands.viewed]
  exact mount_onto (e := img) raw_cache raw_disk rfl mounted

end Runs

end SwiftBSD.Proof.Fs
