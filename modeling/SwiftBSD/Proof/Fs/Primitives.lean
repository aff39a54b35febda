import SwiftBSD.Proof.Fs.Volume

namespace SwiftBSD.Proof.Fs
open Lib SwiftBSD.Fs

section Disk
variable (s : FsState Disk)

theorem run_cacheGet (b : Nat) : (cacheGet b : FsM Disk _).run s = some (b, s) := rfl

theorem run_load (b : Nat) : (load (σ := Disk) b).run s = some (s.dev.block b, s) := rfl

theorem run_put (b c : Nat) (f : Block → Block) :
    (put (σ := Disk) b c f).run s = some ((), { s with dev := s.dev.set b (f (s.dev.block b)) }) := rfl

end Disk

variable {s : FsState Disk} {V : Vol}

theorem run_inodeBlockAndOffset {σ : Type} [BlockStore σ] {s : FsState σ} (layout : Layout s) {i : Nat} (hi : i < 4096 * s.nrGroups) :
    (inodeBlockAndOffset i : FsM σ _).run s = some ((inodeBlock s.nrGroups i, i % 32 * 128), s) := by
  have hg : i / 4096 < s.nrGroups := by omega
  have desc := group_lt_desc hg
  have table := layout.table _ hg
  have small := bitmapBlock_lt layout.bound hg
  have block : ((s.gd (i / 4096)).inodeTableBlock + UInt32.ofNat (i % 4096 / 32)).toNat =
      inodeBlock s.nrGroups i := by
    rw [UInt32.toNat_add, UInt32.toNat_ofNat', table, inodeBlock]
    omega
  have offset : i % 4096 % 32 * 128 = i % 32 * 128 := by omega
  rw [← layout.desc] at desc
  unfold inodeBlockAndOffset
  rw [run_bind_some (StateT.run_get s)]
  simp only [layout.mounted, desc, decide_true, Bool.and_self, if_true, block, offset]
  rfl

theorem run_inodeRead (rep : Rep s V) {i : Nat} (hi : i < V.inodes) :
    (inodeRead i).run s = some (V.inode i, s) := by
  have hi' : i < 4096 * s.nrGroups := by rw [rep.groups]; exact hi
  rw [← rep.inode i hi]
  unfold inodeRead
  rw [run_bind_some (run_inodeBlockAndOffset rep.layout hi'), run_bind_some (run_cacheGet s _),
    run_bind_some (run_load s _)]
  rfl

theorem runs_inodeRead {i : Nat} (hi : i < V.inodes) :
    Runs Rep (inodeRead i) V fun x V' => x = V.inode i ∧ V' = V := by
  intro s rep
  exact ⟨_, s, V, run_inodeRead rep hi, rep, rfl, rfl⟩

theorem Rep.withDev (rep : Rep s V) {dev : Disk} {inode : Nat → Inode} {data : Nat → Block}
    (same : ∀ g < V.groups, bitmapOf { s with dev } g = bitmapOf s g)
    (inodes : ∀ i < V.inodes, inodeAt { s with dev } i = inode i)
    (contents : ∀ b, ¬ Meta V.groups b → dev.block b = data b) :
    Rep { s with dev } { V with inode, data } := by
  refine {
    layout := { rep.layout with }
    groups := rep.groups
    inode := inodes
    used := ?_
    data := contents
    fds := rep.fds
    freeBlocks := rep.freeBlocks
    freeInodes := rep.freeInodes
    groupFreeBlocks := rep.groupFreeBlocks
    groupFreeInodes := rep.groupFreeInodes
    exhausted := ?_
    roomy := rep.roomy
    answers := rep.answers }
  · intro b hb
    have hg : b / 32768 < V.groups := by simp only [Vol.blocks] at hb; omega
    rw [usedAt, same _ hg]
    exact rep.used b hb
  · intro h heap from_ g hg
    rcases rep.exhausted h heap from_ g hg with (empty | full) | refused
    · exact .inl (.inl empty)
    · refine .inl (.inr ?_)
      rw [same g (rep.groups ▸ hg)]
      exact full
    · exact .inr refused

theorem Rep.groups_le (rep : Rep s V) : V.groups ≤ 131072 := rep.groups ▸ rep.layout.bound

theorem Rep.setData (rep : Rep s V) {b : Nat} (hb : ¬ Meta V.groups b) (v : Block) :
    Rep { s with dev := s.dev.set b v } (V.setData b v) := by
  have other {c : Nat} (hc : Meta V.groups c) : (s.dev.set b v).block c = s.dev.block c := by
    simp only [Disk.set]
    rw [Function.update_of_ne]
    rintro rfl
    exact hb hc
  refine rep.withDev (fun g hg => ?_) ?_ ?_
  · simp only [bitmapOf, rep.groups, other (meta_bitmapBlock rep.groups_le hg)]
  · intro i hi
    rw [← rep.inode i hi]
    simp only [inodeAt, rep.groups, other (meta_inodeBlock rep.groups_le hi)]
  · intro c hc
    by_cases same : c = b
    · subst same
      simp [Disk.set]
    · simp only [Disk.set, Function.update_of_ne same]
      exact rep.data c hc

theorem decode_write_same (b : Block) (x : Inode) (i : Nat) :
    Inode.decode ((b.write (i % 32 * 128) x.encode).read (i % 32 * 128) 106) = x := by
  have := Bytes.read_write_same b (i % 32 * 128) x.encode (by rw [length_encode]; omega)
  rw [length_encode] at this
  rw [this, decode_encode]

theorem Rep.setInode (rep : Rep s V) {i : Nat} (hi : i < V.inodes) (x : Inode) :
    Rep { s with
      dev := s.dev.set (inodeBlock V.groups i)
        ((s.dev.block (inodeBlock V.groups i)).write (i % 32 * 128) x.encode) } (V.setInode i x) := by
  refine rep.withDev ?_ ?_ ?_
  · intro g _
    simp only [bitmapOf, rep.groups, Disk.set, Function.update_of_ne (inodeBlock_ne_bitmapBlock rep.groups_le).symm]
  · intro j hj
    simp only [inodeAt, rep.groups, Disk.set]
    by_cases same : j = i
    · subst same
      rw [Function.update_self, Function.update_self, decode_write_same]
    · rw [Function.update_of_ne same, ← rep.inode j hj, inodeAt, rep.groups]
      by_cases block : inodeBlock V.groups j = inodeBlock V.groups i
      · -- another slot of the same block
        have := inodeBlock_inj rep.groups_le block
        rw [block, Function.update_self, Bytes.read_write_disjoint]
        rw [length_encode]
        omega
      · rw [Function.update_of_ne block]
  · intro b hb
    rw [← rep.data b hb]
    refine Function.update_of_ne ?_ _ _
    rintro rfl
    exact hb (meta_inodeBlock rep.groups_le hi)

theorem runs_inodeWrite {i : Nat} (hi : i < V.inodes) (x : Inode) :
    Runs Rep (inodeWrite i x) V fun _ V' => V' = V.setInode i x := by
  intro s rep
  have hi' : i < 4096 * s.nrGroups := by rw [rep.groups]; exact hi
  refine ⟨(), _, _, ?_, rep.setInode hi x, rfl⟩
  unfold inodeWrite
  rw [run_bind_some (run_inodeBlockAndOffset rep.layout hi'), run_bind_some (run_cacheGet s _), run_put,
    rep.groups]

theorem runs_put {b : Nat} (hb : ¬ Meta V.groups b) (c : Nat) (f : Block → Block) :
    Runs Rep (put (σ := Disk) b c f) V fun _ V' => V' = V.setData b (f (V.data b)) := by
  intro s rep
  refine ⟨(), _, _, run_put s b c f, ?_, rfl⟩
  rw [rep.data b hb]
  exact rep.setData hb _

theorem runs_load {b : Nat} (hb : ¬ Meta V.groups b) :
    Runs Rep (load (σ := Disk) b) V fun v V' => v = V.data b ∧ V' = V := by
  intro s rep
  exact ⟨_, s, V, run_load s b, rep, rep.data b hb, rfl⟩

theorem runs_cacheGet (b : Nat) :
    Runs Rep (cacheGet b : FsM Disk _) V fun slot V' => slot = b ∧ V' = V :=
  fun s rep => ⟨b, s, V, rfl, rep, rfl, rfl⟩

end SwiftBSD.Proof.Fs
