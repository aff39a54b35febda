import SwiftBSD.Proof.Fs.Bmap

namespace SwiftBSD.Proof.Fs
open Lib SwiftBSD.Fs

variable {R : Nat → Prop} {V V' : Vol} {i : Nat} {x x' : Inode}

/-- Byte `k` of a file; a hole counts as zeros. -/
def byteAt (data : Nat → Block) (x : Inode) (k : Nat) : UInt8 :=
  if fileBlock data x (k / 4096) = 0 then 0 else (data (fileBlock data x (k / 4096))).get (k % 4096)

def contents (data : Nat → Block) (x : Inode) : List UInt8 := (List.range x.size.toNat).map (byteAt data x)

/-- The first `n` bytes of the file are in blocks. -/
def Solid (data : Nat → Block) (x : Inode) (n : Nat) : Prop := ∀ k < n, fileBlock data x (k / 4096) ≠ 0

theorem lt_of_fileBlock_ne {data : Nat → Block} {l : Nat} (h : fileBlock data x l ≠ 0) : l < 1036 := by
  by_contra large
  exact h (fileBlock_of_ge (by omega))

theorem Solid.le {data : Nat → Block} {n : Nat} (solid : Solid data x n) : n ≤ 1036 * 4096 := by
  by_contra large
  have := lt_of_fileBlock_ne (solid (1036 * 4096) (by omega))
  omega

theorem Own.fileBlock_not_meta (own : Own R (V.setInode i x)) (hi : i < V.inodes) {l : Nat}
    (h : fileBlock V.data x l ≠ 0) : ¬ Meta V.groups (fileBlock V.data x l) := by
  have value : (V.setInode i x).slots (i, l) = fileBlock V.data x l := by
    rw [slots_setInode hi, slot_of_lt (lt_of_fileBlock_ne h)]
  have := own.not_meta (p := (i, l)) (by rw [value]; exact h)
  rwa [value] at this

theorem toNat_ofNat_fileBlock (data : Nat → Block) (x : Inode) (l : Nat) :
    (UInt32.ofNat (fileBlock data x l)).toNat = fileBlock data x l := by
  rw [UInt32.toNat_ofNat', Nat.mod_eq_of_lt (fileBlock_lt data x l)]

theorem ofNat_fileBlock_eq_zero {data : Nat → Block} {l : Nat} :
    UInt32.ofNat (fileBlock data x l) = 0 ↔ fileBlock data x l = 0 := by
  rw [← uint32_eq_zero, toNat_ofNat_fileBlock]

theorem read_eq_bytes {data : Nat → Block} {pos chunk : Nat} (h : chunk ≤ 4096 - pos % 2 ^ 32 % 4096)
    (present : fileBlock data x (pos % 2 ^ 32 / 4096) ≠ 0) :
    (data (fileBlock data x (pos % 2 ^ 32 / 4096))).read (pos % 2 ^ 32 % 4096) chunk =
      (List.range chunk).map fun j => byteAt data x ((pos + j) % 2 ^ 32) := by
  unfold Bytes.read
  refine List.map_congr_left fun j hj => ?_
  have small : j < chunk := by simpa using hj
  have block : (pos + j) % 2 ^ 32 / 4096 = pos % 2 ^ 32 / 4096 := by omega
  have offset : (pos + j) % 2 ^ 32 % 4096 = pos % 2 ^ 32 % 4096 + j := by omega
  rw [byteAt, block, offset, if_neg present]

theorem runs_readLoop (own : Own R (V.setInode i x)) (hi : i < V.inodes) (pos toRead : Nat) (n done : Nat)
    (out : List UInt8) (fuel : toRead - done ≤ n) :
    Runs Rep (readLoop x pos toRead n done out) V fun r V' => V' = V ∧ ∃ d ≤ toRead - done,
      r = out ++ (List.range d).map (fun j => byteAt V.data x ((pos + done + j) % 2 ^ 32)) ∧
      (∀ j < d, fileBlock V.data x ((pos + done + j) % 2 ^ 32 / 4096) ≠ 0) ∧
      (d < toRead - done → fileBlock V.data x ((pos + done + d) % 2 ^ 32 / 4096) = 0) := by
  induction n generalizing done out with
  | zero => exact .pure ⟨rfl, 0, by omega, by simp, by omega, by omega⟩
  | succ n ih =>
      unfold readLoop
      split
      · exact .pure ⟨rfl, 0, by omega, by simp, by omega, by omega⟩
      next more =>
      refine .bind (runs_bmapRead _ (own.table_not_meta hi)) ?_
      rintro _ V ⟨rfl, rfl⟩
      simp only [ofNat_fileBlock_eq_zero, toNat_ofNat_fileBlock]
      split
      · next hole => exact .pure ⟨rfl, 0, by omega, by simp, by omega, fun _ => hole⟩
      next present =>
      refine .bind (runs_cacheGet _) ?_
      rintro _ V ⟨rfl, rfl⟩
      refine .bind (runs_load (own.fileBlock_not_meta hi present)) ?_
      rintro _ V ⟨rfl, rfl⟩
      obtain ⟨chunk, hchunk⟩ : ∃ c, c = min (4096 - (pos + done) % 2 ^ 32 % 4096) (toRead - done) := ⟨_, rfl⟩
      rw [← hchunk, read_eq_bytes (by omega) present]
      refine (ih (done + chunk) _ (by omega)).mono ?_
      rintro r V ⟨rfl, d, bound, rfl, solid, stop⟩
      refine ⟨rfl, chunk + d, by omega, ?_, ?_, ?_⟩
      · rw [List.range_add, List.map_append, List.map_map, List.append_assoc]
        simp only [Function.comp_def, Nat.add_assoc]
      · intro j hj
        by_cases first : j < chunk
        · rwa [show (pos + done + j) % 2 ^ 32 / 4096 = (pos + done) % 2 ^ 32 / 4096 by omega]
        · have := solid (j - chunk) (by omega)
          rwa [show pos + (done + chunk) + (j - chunk) = pos + done + j by omega] at this
      · intro less
        have := stop (by omega)
        rwa [show pos + (done + chunk) + d = pos + done + (chunk + d) by omega] at this

theorem Rep.setFd {s : FsState Disk} (rep : Rep s V) (fds : Nat → Fd) : Rep { s with fds } { V with fds } :=
  ⟨{ rep.layout with }, rep.groups, rep.inode, rep.used, rep.data, rfl, rep.freeBlocks, rep.freeInodes,
    rep.groupFreeBlocks, rep.groupFreeInodes, rep.exhausted, rep.roomy, rep.answers⟩

theorem runs_setPos (fd pos : Nat) :
    Runs Rep (modify (setPos fd pos) : FsM Disk Unit) V fun _ V' => V' = V.setFd fd { V.fds fd with pos } := by
  intro s rep
  refine ⟨(), _, _, rfl, ?_, rfl⟩
  rw [setPos, Vol.setFd, rep.fds]
  exact rep.setFd _

/-- What a call of `swiftfs2_read` can do. `toRead` is `size`, or less where the file ends. -/
inductive ReadPost (V : Vol) (fd : Int) (size : Nat) : Int × List UInt8 → Vol → Prop
  | refused (h : fdOpen V.fds fd = false ∨ (V.fds fd.toNat).flags = oWronly) : ReadPost V fd size (-1, []) V
  | ended (h : (V.inode (V.fds fd.toNat).inode).size.toNat ≤ (V.fds fd.toNat).pos) : ReadPost V fd size (0, []) V
  | bytes {f : Fd} {x : Inode} {toRead d : Nat} (descriptor : f = V.fds fd.toNat) (inode : x = V.inode f.inode)
      (inside : f.pos < x.size.toNat)
      (length : toRead = if x.size.toNat < (f.pos + size) % 2 ^ 32 then (x.size.toNat - f.pos) % 2 ^ 32 else size)
      (bound : d ≤ toRead) (solid : ∀ j < d, fileBlock V.data x ((f.pos + j) % 2 ^ 32 / 4096) ≠ 0)
      (stop : d < toRead → fileBlock V.data x ((f.pos + d) % 2 ^ 32 / 4096) = 0) :
      ReadPost V fd size (d, (List.range d).map fun j => byteAt V.data x ((f.pos + j) % 2 ^ 32))
        (V.setFd fd.toNat { f with pos := (f.pos + d) % 2 ^ 32 })

theorem setInode_self (V : Vol) (i : Nat) : V.setInode i (V.inode i) = V := by
  rw [Vol.setInode, Function.update_eq_self]

theorem runs_swiftfs2Read (own : Own R V) {fd : Int} (size : Nat)
    (inside : (V.fds fd.toNat).inode < V.inodes) :
    Runs Rep (swiftfs2Read fd size) V (ReadPost V fd size) := by
  unfold swiftfs2Read
  refine .bind runs_get ?_
  rintro s V ⟨rfl, rep⟩
  rw [rep.fds]
  split
  · next closed => exact .pure (.refused (.inl (by simpa using closed)))
  dsimp only
  split
  · next writeOnly => exact .pure (.refused (.inr writeOnly))
  refine .bind (runs_inodeRead inside) ?_
  rintro _ V ⟨rfl, rfl⟩
  split
  · next ended => exact .pure (.ended ended)
  next more =>
  have own' : Own R (V.setInode (V.fds fd.toNat).inode (V.inode (V.fds fd.toNat).inode)) := by
    rwa [setInode_self]
  refine .bind (runs_readLoop own' inside _ _ _ 0 [] (by omega)) ?_
  rintro _ V ⟨rfl, d, bound, rfl, solid, stop⟩
  simp only [Nat.add_zero, List.nil_append, Nat.sub_zero, List.length_map, List.length_range] at bound solid stop ⊢
  refine .bind (runs_setPos _ _) ?_
  rintro _ _ rfl
  exact .pure (.bytes rfl rfl (by omega) rfl bound solid stop)

/-- What writing `buf` from byte `done` on has done to a file, once the first `done'` bytes are there. -/
structure Wrote (R : Nat → Prop) (i pos : Nat) (buf : List UInt8) (V : Vol) (x : Inode) (done : Nat)
    (V' : Vol) (x' : Inode) (done' : Nat) : Prop where
  own : Own R (V'.setInode i x')
  ext : Extends V x V' x'
  inode : x' = { x with direct := x'.direct, indirect := x'.indirect }
  le : done ≤ done'
  length : done ≤ buf.length → done' ≤ buf.length
  limit : pos + done ≤ 1036 * 4096 → pos + done' ≤ 1036 * 4096
  solid : ∀ k, done ≤ k → k < done' → fileBlock V'.data x' ((pos + k) % 2 ^ 32 / 4096) ≠ 0
  written : pos + done ≤ 1036 * 4096 → ∀ k, done ≤ k → k < done' →
    byteAt V'.data x' (pos + k) = buf.getD k 0
  kept : pos + done ≤ 1036 * 4096 → ∀ k, fileBlock V.data x (k / 4096) ≠ 0 →
    ¬ (pos + done ≤ k ∧ k < pos + done') → byteAt V'.data x' k = byteAt V.data x k

theorem Wrote.refl {pos : Nat} {buf : List UInt8} (own : Own R (V.setInode i x)) (done : Nat) :
    Wrote R i pos buf V x done V x done :=
  ⟨own, .refl V x, rfl, Nat.le_refl _, id, id, fun k _ _ => by omega, fun _ k _ _ => by omega, fun _ _ _ _ => rfl⟩

theorem Extends.fileBlock_eq (ext : Extends V x V' x') {l : Nat} (h : fileBlock V.data x l ≠ 0) :
    fileBlock V'.data x' l = fileBlock V.data x l := by
  have small := lt_of_fileBlock_ne h
  rw [← slot_of_lt small] at h
  rw [← slot_of_lt small, ← slot_of_lt small]
  exact (ext.slots l).resolve_right fun empty => h empty.1

theorem Wrote.trans {pos : Nat} {buf : List UInt8} {V'' : Vol} {x'' : Inode} {done done' done'' : Nat}
    (first : Wrote R i pos buf V x done V' x' done') (second : Wrote R i pos buf V' x' done' V'' x'' done'') :
    Wrote R i pos buf V x done V'' x'' done'' where
  own := second.own
  ext := first.ext.trans second.ext
  inode := by rw [second.inode, first.inode]
  le := first.le.trans second.le
  length := fun h => second.length (first.length h)
  limit := fun h => second.limit (first.limit h)
  solid := by
    intro k lower upper
    by_cases here : k < done'
    · have := first.solid k lower here
      rwa [second.ext.fileBlock_eq this]
    · exact second.solid k (by omega) upper
  written := by
    intro limit k lower upper
    by_cases here : k < done'
    · have present := first.solid k lower here
      have := first.limit limit
      rw [Nat.mod_eq_of_lt (by omega)] at present
      rw [second.kept (first.limit limit) _ present (by omega), first.written limit k lower here]
    · exact second.written (first.limit limit) k (by omega) upper
  kept := by
    intro limit k present outside
    have le := first.le
    have le' := second.le
    have present' : fileBlock V'.data x' (k / 4096) ≠ 0 := by rwa [first.ext.fileBlock_eq present]
    rw [second.kept (first.limit limit) k present' (by omega), first.kept limit k present (by omega)]

theorem Mapped.setData {l : Nat} {b : UInt32} (mapped : Mapped R i V x l b x' V') (hi : i < V.inodes)
    (nonzero : b ≠ 0) (v : Block) :
    Own R ((V'.setData b.toNat v).setInode i x') ∧ Extends V x (V'.setData b.toNat v) x' ∧
      (∀ m, fileBlock (V'.setData b.toNat v).data x' m = fileBlock V'.data x' m) ∧
      ∀ k, fileBlock V'.data x' (k / 4096) ≠ 0 → byteAt (V'.setData b.toNat v).data x' k =
        if k / 4096 = l then v.get (k % 4096) else byteAt V'.data x' k := by
  have hi' : i < V'.inodes := by rwa [mapped.ext.inodes]
  have present : fileBlock V'.data x' l ≠ 0 := by
    rw [← mapped.block]
    exact fun zero => nonzero (uint32_eq_zero.mp zero)
  have small := lt_of_fileBlock_ne present
  have value : (V'.setInode i x').slots (i, l) = b.toNat := by
    rw [slots_setInode hi', slot_of_lt small, mapped.block]
  have table := mapped.own.not_table (i := i) small (by rw [value, mapped.block]; exact present)
  rw [value] at table
  have ownTable : x'.indirect.toNat ≠ b.toNat := by
    simpa [Vol.setInode] using table i hi'
  have slots : slot (V'.setData b.toNat v).data x' = slot V'.data x' :=
    slot_congr fun _ => Function.update_of_ne ownTable _ _
  have blocks (m : Nat) : fileBlock (V'.setData b.toNat v).data x' m = fileBlock V'.data x' m := by
    rw [fileBlock_eq_slot, fileBlock_eq_slot, slots]
  refine ⟨mapped.own.setData v table, mapped.ext.trans ⟨rfl, fun _ h => h, ?_, ?_⟩, blocks, ?_⟩
  · intro c _ absent
    refine Function.update_of_ne ?_ _ _
    rintro rfl
    exact absent l (by rw [slot_of_lt small, mapped.block])
  · intro k
    rw [slots]
    exact .inl rfl
  · intro k solid
    rw [byteAt, blocks, Vol.setData, if_neg solid]
    dsimp only
    split
    · next same => rw [same, ← mapped.block, Function.update_self]
    · next other =>
        rw [Function.update_of_ne, byteAt, if_neg solid]
        intro shared
        refine other (Prod.mk.inj (mapped.own.owns.unique (i, k / 4096) (i, l) ?_ ?_)).2
        · rwa [slots_setInode hi', slot_of_lt (lt_of_fileBlock_ne solid)]
        · rw [value, slots_setInode hi', slot_of_lt (lt_of_fileBlock_ne solid), shared]

theorem Mapped.byteAt_eq {l : Nat} {b : UInt32} (mapped : Mapped R i V x l b x' V')
    (own : Own R (V.setInode i x)) (hi : i < V.inodes) {k : Nat} (present : fileBlock V.data x (k / 4096) ≠ 0) :
    byteAt V'.data x' k = byteAt V.data x k := by
  have small := lt_of_fileBlock_ne present
  have value : (V.setInode i x).slots (i, k / 4096) = fileBlock V.data x (k / 4096) := by
    rw [slots_setInode hi, slot_of_lt small]
  have used := own.owns.marked (i, k / 4096) (by rw [value]; exact present)
  rw [value] at used
  have other : fileBlock V.data x (k / 4096) ≠ x.indirect.toNat := by
    have := own.not_table (i := i) small (by rw [value]; exact present) i hi
    rw [value] at this
    simpa [Vol.setInode] using this.symm
  rw [byteAt, mapped.ext.fileBlock_eq present, mapped.keep _ used other, byteAt]

theorem Mapped.wrote {pos done chunk : Nat} {b : UInt32} {buf : List UInt8}
    (mapped : Mapped R i V x ((pos + done) % 2 ^ 32 / 4096) b x' V') (own : Own R (V.setInode i x))
    (hi : i < V.inodes) (nonzero : b ≠ 0)
    (length : chunk = min (4096 - (pos + done) % 2 ^ 32 % 4096) (buf.length - done)) :
    Wrote R i pos buf V x done (V'.setData b.toNat ((V'.data b.toNat).write ((pos + done) % 2 ^ 32 % 4096)
      ((buf.drop done).take chunk))) x' (done + chunk) := by
  obtain ⟨own', ext, blocks, bytes⟩ := mapped.setData hi nonzero
    ((V'.data b.toNat).write ((pos + done) % 2 ^ 32 % 4096) ((buf.drop done).take chunk))
  have present : fileBlock V'.data x' ((pos + done) % 2 ^ 32 / 4096) ≠ 0 := by
    rw [← mapped.block]
    exact fun zero => nonzero (uint32_eq_zero.mp zero)
  have small := lt_of_fileBlock_ne present
  have size : ((buf.drop done).take chunk).length = chunk := by
    rw [List.length_take, List.length_drop]
    omega
  refine ⟨own', ext, mapped.inode, by omega, by omega, by omega, ?_, ?_, ?_⟩
  · intro k lower upper
    rw [blocks, show (pos + k) % 2 ^ 32 / 4096 = (pos + done) % 2 ^ 32 / 4096 by omega]
    exact present
  · intro limit k lower upper
    have block : (pos + k) / 4096 = (pos + done) % 2 ^ 32 / 4096 := by omega
    rw [bytes _ (by rwa [block]), if_pos block, Bytes.get_write, size, if_pos (by omega)]
    rw [show (pos + k) % 4096 - (pos + done) % 2 ^ 32 % 4096 = k - done by omega]
    simp only [List.getD_eq_getElem?_getD, List.getElem?_take, List.getElem?_drop]
    rw [if_pos (by omega), show done + (k - done) = k by omega]
  · intro limit k old outside
    have old' : fileBlock V'.data x' (k / 4096) ≠ 0 := by rwa [mapped.ext.fileBlock_eq old]
    rw [bytes k old', ← mapped.byteAt_eq own hi old]
    split
    · next same =>
        rw [Bytes.get_write, size, if_neg (by omega), byteAt, same, if_neg present, mapped.block]
    · rfl

theorem runs_writeLoop (pos : Nat) (buf : List UInt8) (n done : Nat) (own : Own R (V.setInode i x))
    (hi : i < V.inodes) (fuel : buf.length - done ≤ n) :
    Runs Rep (writeLoop pos buf n done x) V fun r V' => Wrote R i pos buf V x done V' r.2 r.1 ∧
      (r.1 < buf.length → 1036 ≤ (pos + r.1) % 2 ^ 32 / 4096 ∨ V'.exhausted = true) := by
  induction n generalizing done V x with
  | zero => exact .pure ⟨.refl own done, fun h => by simp only at h; omega⟩
  | succ n ih =>
      unfold writeLoop
      split
      · exact .pure ⟨.refl own done, fun h => by simp only at h; omega⟩
      next more =>
      refine .bind (runs_bmapRead_create own hi _) ?_
      rintro ⟨b, x'⟩ V' mapped
      dsimp only at mapped ⊢
      split
      · next zero =>
          subst zero
          refine .pure ⟨⟨mapped.own, mapped.ext, mapped.inode, Nat.le_refl _, id, id, fun k _ _ => ?_,
            fun _ k _ _ => ?_, fun _ k old _ => mapped.byteAt_eq own hi old⟩, fun _ => mapped.stop rfl⟩
          · simp only at *; omega
          · simp only at *; omega
      · next nonzero =>
          have hi' : i < V'.inodes := by rwa [mapped.ext.inodes]
          have present : fileBlock V'.data x' ((pos + done) % 2 ^ 32 / 4096) ≠ 0 := by
            rw [← mapped.block]
            exact fun zero => nonzero (uint32_eq_zero.mp zero)
          have inside := mapped.own.fileBlock_not_meta hi' present
          rw [← mapped.block] at inside
          refine .bind (runs_cacheGet _) ?_
          rintro _ V' ⟨rfl, rfl⟩
          refine .bind (runs_put inside _ _) ?_
          rintro _ _ rfl
          have wrote := @Mapped.wrote _ _ _ _ _ _ _ _ _ _ buf mapped own hi nonzero rfl
          refine (ih _ wrote.own hi' (by omega)).mono ?_
          rintro r W ⟨rest, stop⟩
          exact ⟨wrote.trans rest, stop⟩

theorem slot_grow (data : Nat → Block) (x : Inode) (pos : Nat) : slot data (x.grow pos) = slot data x := rfl

theorem Own.setInode_of_slot (own : Own R (V.setInode i x)) (hi : i < V.inodes)
    (same : slot V.data x' = slot V.data x) : Own R (V.setInode i x') := by
  refine ⟨?_, own.reserved⟩
  have : (V.setInode i x').slots = (V.setInode i x).slots := by
    have trivially : slot V.data x' = Function.update (slot V.data x) 0 (slot V.data x 0) := by
      rw [same, Function.update_eq_self]
    rw [slots_update hi trivially, ← slots_setInode hi, Function.update_eq_self]
  rw [this]
  exact own.owns

inductive WritePost (R : Nat → Prop) (V : Vol) (fd : Int) (buf : List UInt8) : Int → Vol → Prop
  | refused (h : fdOpen V.fds fd = false ∨ (V.fds fd.toNat).flags = oRdonly) : WritePost R V fd buf (-1) V
  | wrote {f : Fd} {W : Vol} {x' : Inode} {done : Nat} (open_ : fdOpen V.fds fd = true)
      (descriptor : f = V.fds fd.toNat) (writable : f.flags ≠ oRdonly)
      (wrote : Wrote R f.inode f.pos buf V (V.inode f.inode) 0 W x' done)
      (stop : done < buf.length → 1036 ≤ (f.pos + done) % 2 ^ 32 / 4096 ∨ W.exhausted = true) :
      WritePost R V fd buf done ((W.setInode f.inode (x'.grow ((f.pos + done) % 2 ^ 32))).setFd fd.toNat
        { f with pos := (f.pos + done) % 2 ^ 32 })

theorem runs_swiftfs2Write (own : Own R V) {fd : Int} (buf : List UInt8)
    (inside : (V.fds fd.toNat).inode < V.inodes) :
    Runs Rep (swiftfs2Write fd buf) V (WritePost R V fd buf) := by
  unfold swiftfs2Write
  refine .bind runs_get ?_
  rintro s V ⟨rfl, rep⟩
  rw [rep.fds]
  split
  · next closed => exact .pure (.refused (.inl (by simpa using closed)))
  next opened =>
  dsimp only
  split
  · next readOnly => exact .pure (.refused (.inr readOnly))
  next writable =>
  refine .bind (runs_inodeRead inside) ?_
  rintro _ V ⟨rfl, rfl⟩
  have own' : Own R (V.setInode (V.fds fd.toNat).inode (V.inode (V.fds fd.toNat).inode)) := by
    rwa [setInode_self]
  refine .bind (runs_writeLoop _ buf _ 0 own' inside (by omega)) ?_
  rintro ⟨done, x'⟩ W ⟨wrote, stop⟩
  have fds : W.fds = V.fds := by rw [wrote.ext.frame]
  refine .bind (runs_inodeWrite (by rwa [wrote.ext.inodes]) _) ?_
  rintro _ _ rfl
  refine .bind (runs_setPos _ _) ?_
  rintro _ _ rfl
  have := WritePost.wrote (by simpa using opened) rfl writable wrote stop
  refine .pure ?_
  simpa only [Vol.setInode, fds] using this

theorem byteAt_congr {data data' : Nat → Block} (slots : slot data' x = slot data x)
    (same : ∀ k, slot data x k ≠ 0 → data' (slot data x k) = data (slot data x k)) :
    byteAt data' x = byteAt data x := by
  funext k
  have block (l : Nat) : fileBlock data' x l = fileBlock data x l := by
    rw [fileBlock_eq_slot, fileBlock_eq_slot, slots]
  unfold byteAt
  rw [block]
  split
  · rfl
  · next present =>
      have small := lt_of_fileBlock_ne present
      rw [← slot_of_lt small] at present ⊢
      rw [same _ present]

section Written
variable {pos done : Nat} {buf : List UInt8} (wrote : Wrote R i pos buf V x 0 V' x' done)
  (solid : Solid V.data x x.size.toNat) (start : pos ≤ x.size.toNat)
include wrote solid start

theorem Wrote.pos_le : pos + done ≤ 1036 * 4096 := wrote.limit (by have := solid.le; omega)

theorem Wrote.size_grow : (x'.grow ((pos + done) % 2 ^ 32)).size.toNat = max x.size.toNat (pos + done) := by
  have limit := wrote.pos_le solid start
  have size : x'.size = x.size := by rw [wrote.inode]
  rw [Nat.mod_eq_of_lt (by omega), Inode.grow]
  dsimp only
  rw [size]
  split
  · rw [UInt64.toNat_ofNat']
    omega
  · omega

theorem Wrote.solid_grow : Solid V'.data x' (max x.size.toNat (pos + done)) := by
  have limit := wrote.pos_le solid start
  intro k hk
  by_cases old : k < x.size.toNat
  · rw [wrote.ext.fileBlock_eq (solid k old)]
    exact solid k old
  · have := wrote.solid (k - pos) (by omega) (by omega)
    rwa [show pos + (k - pos) = k by omega, Nat.mod_eq_of_lt (by omega)] at this

theorem Wrote.contents_grow : contents V'.data (x'.grow ((pos + done) % 2 ^ 32)) =
    (contents V.data x).take pos ++ buf.take done ++ (contents V.data x).drop (pos + done) := by
  have limit := wrote.pos_le solid start
  have short := wrote.length (Nat.zero_le _)
  have bytes (k : Nat) : byteAt V'.data (x'.grow ((pos + done) % 2 ^ 32)) k = byteAt V'.data x' k := rfl
  unfold contents
  rw [wrote.size_grow solid start]
  apply List.ext_getElem
  · simp only [List.length_map, List.length_range, List.length_append, List.length_take, List.length_drop]
    omega
  · intro k hk _
    simp only [List.length_map, List.length_range] at hk
    simp only [List.getElem_map, List.getElem_range, bytes]
    by_cases before : k < pos
    · rw [List.getElem_append_left (by simp; omega), List.getElem_append_left (by simp; omega)]
      simp only [List.getElem_take, List.getElem_map, List.getElem_range]
      exact wrote.kept (by omega) k (solid k (by omega)) (by omega)
    · by_cases inside : k < pos + done
      · rw [List.getElem_append_left (by simp; omega), List.getElem_append_right (by simp; omega)]
        have := wrote.written (by omega) (k - pos) (by omega) (by omega)
        rw [show pos + (k - pos) = k by omega] at this
        simp only [this, List.getElem_take, List.length_take, List.length_map, List.length_range]
        rw [List.getD_eq_getElem?_getD, List.getElem?_eq_getElem (by omega), Option.getD_some]
        congr 1
        omega
      · rw [List.getElem_append_right (by simp; omega)]
        simp only [List.length_append, List.length_take, List.length_map, List.length_range, List.getElem_drop,
          List.getElem_map, List.getElem_range]
        rw [wrote.kept (by omega) k (solid k (by omega)) (by omega)]
        congr 1
        omega

end Written

theorem WritePost.file {fd : Int} {buf : List UInt8} {r : Int} {p : Nat} (post : WritePost R V fd buf r V')
    (own : Own R V) (opened : fdOpen V.fds fd = true) (writable : (V.fds fd.toNat).flags ≠ oRdonly)
    (bound : i < V.inodes) (hi : (V.fds fd.toNat).inode = i) (hp : (V.fds fd.toNat).pos = p)
    (hx : V.inode i = x) (solid : Solid V.data x x.size.toNat) (start : p ≤ x.size.toNat) :
    ∃ d : Nat, r = d ∧ d ≤ buf.length ∧ Own R V' ∧ V'.inodes = V.inodes ∧ V'.answers = V.answers ∧
      contents V'.data (V'.inode i) = (contents V.data x).take p ++ buf.take d ++ (contents V.data x).drop (p + d) ∧
      (V'.inode i).size.toNat = max x.size.toNat (p + d) ∧
      Solid V'.data (V'.inode i) (max x.size.toNat (p + d)) ∧
      (∀ j < V.inodes, j ≠ i → V'.inode j = V.inode j ∧
        contents V'.data (V'.inode j) = contents V.data (V.inode j)) ∧
      (d < buf.length → V'.exhausted = true ∨ p + d = 1036 * 4096) := by
  cases post with
  | refused h =>
      rcases h with closed | readOnly
      · simp [closed] at opened
      · exact (writable readOnly).elim
  | @wrote f W x' d _ descriptor _ wrote stop =>
      subst descriptor
      rw [hi, hp, hx] at wrote
      rw [hp] at stop
      rw [hi, hp]
      have own' : Own R (V.setInode i x) := by rwa [← hx, setInode_self]
      have inodes := wrote.ext.inodes
      have bound' : i < W.inodes := inodes ▸ bound
      have limit := wrote.pos_le solid start
      have here (y : Inode) (g : Fd) : ((W.setInode i y).setFd fd.toNat g).inode i = y := by
        simp [Vol.setInode, Vol.setFd]
      have answers : W.answers = V.answers := by rw [wrote.ext.frame]
      refine ⟨d, rfl, wrote.length (Nat.zero_le _), ?_, inodes, answers, ?_, ?_, ?_, ?_, ?_⟩
      · have := wrote.own.setInode_of_slot bound' (slot_grow W.data x' ((p + d) % 2 ^ 32))
        exact ⟨this.owns, this.reserved⟩
      · rw [here]
        exact wrote.contents_grow solid start
      · rw [here]
        exact wrote.size_grow solid start
      · rw [here]
        exact wrote.solid_grow solid start
      · intro j hj other
        obtain ⟨slots, same⟩ := wrote.ext.other_slot own' bound hj other
        have inode (y : Inode) (g : Fd) : ((W.setInode i y).setFd fd.toNat g).inode j = V.inode j := by
          simp [Vol.setInode, Vol.setFd, Function.update_of_ne other, wrote.ext.inode]
        rw [inode]
        refine ⟨rfl, ?_⟩
        unfold contents
        exact congrArg (List.map · _) (byteAt_congr slots same)
      · intro less
        rcases stop less with full | exhausted
        · rw [Nat.mod_eq_of_lt (by omega)] at full
          exact .inr (by omega)
        · exact .inl exhausted

section State
variable {s : FsState Disk}

def fileContents (s : FsState Disk) (i : Nat) : List UInt8 := contents s.dev.block (inodeAt s i)

def NoHoles (s : FsState Disk) (i : Nat) : Prop := Solid s.dev.block (inodeAt s i) (inodeAt s i).size.toNat

theorem Rep.fileBlock (rep : Rep s V) (own : Own R V) (hi : i < V.inodes) (l : Nat) :
    fileBlock s.dev.block (V.inode i) l = Fs.fileBlock V.data (V.inode i) l := by
  refine fileBlock_congr (fun table => rep.data _ ?_) l
  have own' : Own R (V.setInode i (V.inode i)) := by rwa [setInode_self]
  exact own'.table_not_meta hi table

theorem Rep.byteAt (rep : Rep s V) (own : Own R V) (hi : i < V.inodes) (k : Nat) :
    byteAt s.dev.block (V.inode i) k = Fs.byteAt V.data (V.inode i) k := by
  have own' : Own R (V.setInode i (V.inode i)) := by rwa [setInode_self]
  unfold Fs.byteAt
  rw [rep.fileBlock own hi]
  split
  · rfl
  · next present => rw [rep.data _ (own'.fileBlock_not_meta hi present)]

theorem Rep.fileContents (rep : Rep s V) (own : Own R V) (hi : i < V.inodes) :
    fileContents s i = contents V.data (V.inode i) := by
  rw [Fs.fileContents, rep.inode i hi, contents, contents]
  exact List.map_congr_left fun k _ => rep.byteAt own hi k

theorem Rep.noHoles (rep : Rep s V) (own : Own R V) (hi : i < V.inodes) :
    NoHoles s i ↔ Solid V.data (V.inode i) (V.inode i).size.toNat := by
  simp only [NoHoles, Solid, rep.inode i hi, rep.fileBlock own hi]

theorem ReadPost.whole {fd : Int} {m : Nat} {r : Int × List UInt8} (post : ReadPost V fd m r V')
    (opened : fdOpen V.fds fd = true) (readable : (V.fds fd.toNat).flags ≠ oWronly)
    (hx : x = V.inode (V.fds fd.toNat).inode) (solid : Solid V.data x x.size.toNat) (short : m ≤ x.size.toNat) :
    r = (((min m (x.size.toNat - (V.fds fd.toNat).pos) : Nat) : Int),
      ((contents V.data x).drop (V.fds fd.toNat).pos).take m) := by
  have limit := solid.le
  subst hx
  cases post with
  | refused h =>
      rcases h with closed | writeOnly
      · simp [closed] at opened
      · exact (readable writeOnly).elim
  | ended h =>
      rw [Nat.sub_eq_zero_of_le h, List.drop_eq_nil_of_le (by simpa [contents] using h)]
      simp
  | @bytes f x toRead d descriptor inode inside length bound present stop =>
      subst descriptor inode
      -- nothing wraps and there is no hole on the way, so the loop goes to its end
      have whole : d = toRead := by
        by_contra less
        have hole := stop (by omega)
        rw [Nat.mod_eq_of_lt (by split at length <;> omega)] at hole
        refine solid _ ?_ hole
        split at length <;> omega
      have value : toRead = min m ((V.inode (V.fds fd.toNat).inode).size.toNat - (V.fds fd.toNat).pos) := by
        split at length <;> omega
      rw [whole, value, Prod.mk.injEq]
      refine ⟨rfl, ?_⟩
      apply List.ext_getElem
      · simp [contents]
      · intro k hk _
        simp only [List.length_map, List.length_range] at hk
        simp only [contents, List.getElem_map, List.getElem_range, List.getElem_take, List.getElem_drop]
        rw [Nat.mod_eq_of_lt (by omega)]

end State

end SwiftBSD.Proof.Fs
