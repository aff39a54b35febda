import SwiftBSD.Proof.Fs.EntryNames
import SwiftBSD.Proof.Fs.Growing

namespace SwiftBSD.Proof.Fs
open Lib SwiftBSD.Fs

variable {R : Nat → Prop} {K : UInt16 → Prop} {V V' W : Vol} {D D' : Nat → List (List Rec)} {path : List UInt8} {flags : UInt32}
  {m m' : FsState Cache} {c : Call} {r : Result} {i p : Nat}

/-- What the checked cache of a state shows is what is seen. -/
theorem Shown.here (shown : Shown (FsState.onto m (Pinned.mk m.dev)) W) (rep : Rep (Fs.viewed m) V) : Shown (FsState.onto m (Pinned.mk m.dev)) V := by
  obtain ⟨d, -, shows_⟩ := shown
  have back : FsState.onto (FsState.onto m (Pinned.mk m.dev)) d.dev = d := by
    rw [shows_.same]
    rfl
  have stands : Stands m.dev d.dev.block := shows_.dev
  rw [stands.viewed] at rep
  refine ⟨d, ?_, shows_⟩
  rw [← back]
  exact rep

/-- Calls that use no bitmap use no stale pointer. -/
theorem Stands.reading {L : Nat → Block} {s : FsState Disk} (stands : Stands m.dev L) (reading : Call.Reading c)
    (run : c.exec.run (Fs.viewed m) = some (r, s)) : NoStale m c := by
  have agree : Agree False diskOverPinned.Dev (FsState.onto m (Disk.mk L)) (FsState.onto m (Pinned.mk m.dev)) := ⟨stands, rfl, False.elim⟩
  rw [stands.viewed] at run
  obtain ⟨p, run', -⟩ := diskOverPinned.alike_reading reading _ _ _ _ agree run
  exact ⟨r, p, run'⟩

theorem Stands.reads {L : Nat → Block} (stands : Stands m.dev L) (reading : Call.Reading c) (run : c.exec.run m = some (r, m')) :
    (∃ M, Stands m'.dev M) ∧ c.exec.run (Fs.viewed m) = some (r, Fs.viewed m') := by
  have agree : Agree False cacheOverDisk.Dev m (FsState.onto m (Disk.mk L)) := ⟨stands, rfl, False.elim⟩
  obtain ⟨d, run', agree'⟩ := cacheOverDisk.alike_reading reading _ _ _ _ agree run
  have stands' : Stands m'.dev d.dev.block := agree'.dev
  have onto : d = FsState.onto m' (Disk.mk d.dev.block) := agree'.same
  rw [stands.viewed, stands'.viewed, ← onto]
  exact ⟨⟨_, stands'⟩, run'⟩

theorem Shown.plain {s : FsState Disk} (shown : Shown (FsState.onto m (Pinned.mk m.dev)) V) (plain : Call.Plain c)
    (run : c.exec.run (Fs.viewed m) = some (r, s)) : NoStale m c := by
  obtain ⟨d, -, shows_⟩ := shown
  have back : FsState.onto (FsState.onto m (Pinned.mk m.dev)) d.dev = d := by
    rw [shows_.same]
    rfl
  have stands : Stands m.dev d.dev.block := shows_.dev
  rw [stands.viewed] at run
  obtain ⟨p, run', -⟩ := diskOverPinned.alike_exec plain d _ _ _ shows_ (back ▸ run)
  exact ⟨r, p, run'⟩

theorem runs_shown_mounted : Runs Shown (get : FsM Pinned (FsState Pinned)) V fun s V' => s.mounted = true ∧ V' = V := by
  rintro p ⟨d, rep, shows_⟩
  refine ⟨p, p, V, rfl, ⟨d, rep, shows_⟩, ?_, rfl⟩
  rw [shows_.same]
  exact rep.layout.mounted

/-- No pointer goes stale while a file is created in a directory whose first block has room. -/
theorem runs_shown_openCreate (c : Consistent R K V D) (nul : 0 ∉ path) (ok : Addable K V D path)
    (room : ∀ p i rs, parentOf V D path = some p → (D p)[0]? = some rs →
      insertRec (entryLen (splitParent path).2) i (splitParent path).2 rs ≠ none) :
    Runs Shown (openCreate path) V fun r V' => ∀ i, r = some i → i < V'.inodes := by
  unfold openCreate
  refine .bind (runs_shown (diskOverPinned.alike_parentWalk path) (runs_parentWalk c nul)) ?_
  rintro _ V ⟨rfl, rfl⟩
  cases parent : parentOf V D path with
  | none => exact .pure nofun
  | some p =>
      refine .bind (runs_shown (diskOverPinned.alike_inodeAlloc _) (runs_inodeAlloc _)) ?_
      rintro i W alloc
      cases alloc with
      | none =>
          rw [if_pos rfl]
          exact .pure nofun
      | some free first =>
          obtain ⟨positive, bound, -⟩ := id free
          rw [if_neg (by omega)]
          have c' := c.allocIno (sIfreg ||| 0o644) i
          have dir := c.parent_allocIno (sIfreg ||| 0o644) i (c.parentOf_lt parent) (ok.2 p parent)
          have room' (rs : List Rec) (block : (Function.update D i [] p)[0]? = some rs) :
              insertRec (entryLen (splitParent path).2) i (splitParent path).2 rs ≠ none := by
            by_cases same : p = i
            · rw [same, Function.update_self] at block
              cases block
            · rw [Function.update_of_ne same] at block
              exact room p i rs parent block
          refine .bind (runs_shown_dirAddEntry dir c'.own (c.parentOf_lt parent) c'.bound ok.1 positive bound room') ?_
          rintro r V' ⟨bs, add⟩
          have inside : i < V'.inodes := by
            rw [add.inodes]
            exact bound
          split
          · exact .bind (runs_shown_inodeFree inside (by omega)) fun _ _ _ => .pure nofun
          · refine .pure fun j same => ?_
            obtain rfl := Option.some.inj same
            exact inside

theorem runs_shown_swiftfs2Open (c : Consistent R K V D) (nul : 0 ∉ path) (kept : flags &&& oTrunc = 0)
    (ok : resolve V D path = none → flags &&& oCreat ≠ 0 → Addable K V D path)
    (room : ∀ p i rs, parentOf V D path = some p → (D p)[0]? = some rs →
      insertRec (entryLen (splitParent path).2) i (splitParent path).2 rs ≠ none) :
    Runs Shown (swiftfs2Open path flags) V fun _ _ => True := by
  have finish {i : Nat} {W : Vol} (inside : i < W.inodes) : Runs Shown (do
      let x ← inodeRead i
      if flags &&& (oWronly ||| oRdwr) ≠ 0 ∧ x.mode &&& sIwusr = 0 then return -1
      if flags &&& oTrunc ≠ 0 then openTrunc i x
      openFd i flags) W fun _ _ => True := by
    refine .bind (runs_shown (diskOverPinned.alike_inodeRead i) (runs_inodeRead inside)) ?_
    rintro x _ ⟨rfl, rfl⟩
    split
    · exact .pure trivial
    · rw [if_neg (not_not.mpr kept)]
      exact (runs_shown (alike_openFd i flags) (runs_openFd i flags)).mono fun _ _ _ => trivial
  unfold swiftfs2Open
  refine .bind runs_shown_mounted ?_
  rintro s V ⟨mounted, rfl⟩
  rw [mounted]
  simp only [Bool.not_true, Bool.false_eq_true, if_false]
  unfold openResolve
  rw [bind_assoc]
  refine .bind (runs_shown (diskOverPinned.alike_pathWalk path) (runs_pathWalk c nul)) ?_
  rintro _ V ⟨rfl, rfl⟩
  cases found : resolve V D path with
  | some i => exact finish (c.resolve_lt found)
  | none =>
      dsimp only
      split
      · exact .pure trivial
      · next creat =>
          refine .bind (runs_shown_openCreate c nul (ok found creat) room) ?_
          rintro r V₁ inside
          cases r with
          | none => exact .pure trivial
          | some i => exact finish (inside i rfl)

theorem Shown.opens (shown : Shown (FsState.onto m (Pinned.mk m.dev)) V) (c : Consistent R K V D) {path : CString} (kept : flags &&& oTrunc = 0)
    (ok : resolve V D path.bytes = none → flags &&& oCreat ≠ 0 → Addable K V D path.bytes)
    (room : ∀ p i rs, parentOf V D path.bytes = some p → (D p)[0]? = some rs →
      insertRec (entryLen (splitParent path.bytes).2) i (splitParent path.bytes).2 rs ≠ none) :
    ∃ r p W, (Call.open_ path flags).exec.run (FsState.onto m (Pinned.mk m.dev)) = some (r, p) ∧ Shown p W := by
  obtain ⟨r, p, W, run, after, -⟩ := runs_shown_swiftfs2Open c path.nul kept ok room _ shown
  exact ⟨.ofValue r, p, W, run_bind_some run, after⟩

theorem shown_after (other : c ≠ .sync) (run : c.exec.run m = some (r, m'))
    (shown : ∃ r p W, c.exec.run (FsState.onto m (Pinned.mk m.dev)) = some (r, p) ∧ Shown p W) (rep : Rep (viewed m') V) :
    Shown (FsState.onto m' (Pinned.mk m'.dev)) V := by
  obtain ⟨r', p, W, checked, shown⟩ := shown
  rw [← checked_after (steady_pinnedOverCache.alike_exec other) checked run] at shown
  exact shown.here rep

theorem insertRec_oneBin (nonzero : i ≠ 0) (j : Nat) : insertRec (entryLen filePath.bytes) j filePath.bytes (oneBin i) =
    some [⟨12, 1, dot⟩, ⟨12, 1, dotdot⟩, ⟨12, i, binName⟩, ⟨12, j, filePath.bytes⟩, .free 4048] := by
  have live : (i == 0) = false := beq_eq_false_iff_ne.mpr nonzero
  simp [insertRec, oneBin, Rec.takes, entryLen, Rec.free, binName, dot, dotdot, live, Rec.use, filePath]

theorem lookup_oneBin (i : Nat) : lookup [oneBin i] filePath.bytes = none := by
  unfold lookup seen
  rw [List.flatMap_singleton, Option.map_eq_none_iff, List.find?_eq_none]
  intro q member
  have listed := (List.takeWhile_sublist Rec.live).subset member
  simp only [oneBin, List.mem_cons, List.not_mem_nil, or_false] at listed
  rcases listed with rfl | rfl | rfl | rfl <;> simp [dot, dotdot, binName, Rec.free, filePath]

/-- With an inode, a record and a descriptor to spare, the file is created and opened. -/
theorem OpenPost.opens {r : Int} (post : OpenPost R V D filePath.bytes (oCreat ||| oRdwr) r V' D') (missing : resolve V D filePath.bytes = none)
    (roomy : V.roomy = true) (free : ∃ j, V.FreeIno j) (used : (V.inode 1).mode ≠ 0) (root : D 1 = [oneBin i]) (nonzero : i ≠ 0)
    (fd : (V.fds 2).inode = 0) : (0 ≤ r ∧ r.toNat < 64) ∧ V'.roomy = true ∧ V'.avail = V.avail := by
  have walked : parentOf V D filePath.bytes = some 1 := rfl
  have other {j : Nat} (free : V.FreeIno j) : j ≠ 1 := by
    rintro rfl
    exact used free.2.2.2
  have inserted (j : Nat) : insertDir (entryLen filePath.bytes) j filePath.bytes [oneBin i] ≠ none := by
    rw [insertDir, updateFirst, insertRec_oneBin nonzero]
    exact Option.some_ne_none _
  obtain ⟨j, free⟩ := free
  cases post with
  | missing _ noCreat => exact absurd noCreat (by decide)
  | existing found => cases missing.symm.trans found
  | notCreated _ _ create =>
      cases create with
      | noParent parent => cases walked.symm.trans parent
      | noInode _ full => exact absurd free (full roomy j)
      | @noEntry p k W bs parent free first add =>
          obtain rfl : 1 = p := Option.some.inj (walked.symm.trans parent)
          rw [Function.update_of_ne (other free).symm, root] at add
          cases add with
          | full none => exact absurd none (inserted k)
          | leak none => exact absurd none (inserted k)
  | @created k _ V₁ _ _ _ _ _ create rest =>
      cases create with
      | @created p _ _ bs parent free first add =>
          obtain rfl : 1 = p := Option.some.inj (walked.symm.trans parent)
          rw [Function.update_of_ne (other free).symm, root] at add
          cases add with
          | grow none => exact absurd none (inserted k)
          | lost none => exact absurd none (inserted k)
          | fit found edited data =>
              have mode : (V₁.inode k).mode = sIfreg ||| 0o644 := by
                rw [edited.frame.inode k (other free)]
                exact congrArg Inode.mode (inode_setInode_self _ k _)
              cases rest with
              | denied _ readOnly =>
                  rw [mode] at readOnly
                  exact absurd readOnly (by decide)
              | noFd _ _ full =>
                  refine absurd ?_ (full 2 (by omega) (by omega))
                  rw [edited.fds]
                  exact fd
              | opened _ trunc _ upper =>
                  cases trunc with
                  | cut trunc => exact absurd (by decide) trunc
                  | kept =>
                      have avail : V₁.avail = V.avail := Vol.avail_congr (by rw [data]; rfl) (by rw [data]; rfl) (by rw [data]; rfl)
                      refine ⟨⟨Int.natCast_nonneg _, upper⟩, ?_, ?_⟩
                      · change V₁.roomy = true
                        rw [data]
                        exact roomy
                      · exact avail

/-- On a volume with `/bin`, `a` is created without a stale pointer. -/
structure CreatedFile (m₀ m₁ : FsState Cache) (r₁ r : Result) (m : FsState Cache) : Prop where
  bin : Checked Growing m₀ (.mkdir binPath 0o755)
  made : (Call.mkdir binPath 0o755).exec.run m₀ = some (r₁, m₁)
  fresh : NoStale m₁ (.open_ filePath (oCreat ||| oRdwr))
  ran : (Call.open_ filePath (oCreat ||| oRdwr)).exec.run m₁ = some (r, m)
  opened : Opened (viewed m₁) r (viewed m)

theorem created_cache_128 : ∃ (img : Disk) (m₀ m₁ m : FsState Cache) (r₁ r : Result) (V : Vol) (D : Nat → List (List Rec)), mkfs 128 = some img ∧
    swiftfs2Mount.run (FsState.boot (Cache.boot img) fun _ => true) = some (0, m₀) ∧ CreatedFile m₀ m₁ r₁ r m ∧
    Shown (FsState.onto m (Pinned.mk m.dev)) V ∧ Rep (viewed m) V ∧ Consistent (Geometry.Reserved (Geometry.ofMb 128)) dirModes V D ∧
    V.roomy = true ∧ 1999 ≤ V.avail := by
  obtain ⟨img, m₀, V, made, mounted, rep, fresh, consistent, checked⟩ := growing_cache_128
  obtain ⟨stands, mounted'⟩ := mounted_viewed mounted
  obtain ⟨r₁, m₁, run₁⟩ := checked.2.2.run checked.1
  obtain ⟨-, seen₁⟩ := checked.2.2.viewed checked.1 stands run₁
  obtain ⟨V₁, D₁, rep₁, consistent₁, -, post₁⟩ := exec_post rep consistent (checked.2.1.1.safe rep consistent) seen₁
  have avail := fresh.avail
  obtain ⟨i, free, root₁, roomy₁, avail₁, fds₁, inodes₁, counts₁, kept₁⟩ := post₁.bin oneBin fresh.roomy (by omega)
    ⟨2, fresh.freeIno (by omega) (by omega)⟩ fresh.root_mode rfl fun _ _ => rfl
  have nonzero : i ≠ 0 := Nat.pos_iff_ne_zero.mp free.1
  have root : V₁.inode 1 = V.inode 1 := kept₁ 1 (fresh.ne_one free).symm
  have shown₁ := shown_after checked.1 run₁ (bin_shown mounted rep fresh consistent) rep₁
  have rootDir : (V₁.inode 1).isDir = true := by
    rw [root]
    exact fresh.root
  have dir₁ : (inodeAt (viewed m₁) 1).isDir = true := by
    rw [rep₁.inode 1 consistent₁.root]
    exact rootDir
  have missing : resolve V₁ D₁ filePath.bytes = none := by
    have components : pathComponents filePath.bytes = [filePath.bytes] := by decide
    rw [resolve, components, walk, rootDir, if_pos rfl, root₁, lookup_oneBin]
    rfl
  obtain ⟨w, walked, -⟩ := run_pathWalk rep₁ consistent₁ filePath
  rw [missing] at walked
  have growing : Growing (viewed m₁) (.open_ filePath (oCreat ||| oRdwr)) :=
    ⟨⟨by decide, fun _ _ _ => ⟨by decide, by decide, 1, viewed m₁, rfl, dir₁⟩⟩, fun trunc => absurd (by decide) trunc⟩
  have shown : ∃ r p W, (Call.open_ filePath (oCreat ||| oRdwr)).exec.run (FsState.onto m₁ (Pinned.mk m₁.dev)) = some (r, p) ∧ Shown p W := by
    refine shown₁.opens consistent₁ (by decide) (fun _ _ => ⟨by decide, fun p parent => ?_⟩) fun p j rs parent block => ?_
    · obtain rfl : 1 = p := Option.some.inj parent
      exact (dirModes_isDir _).mpr rootDir
    · obtain rfl : 1 = p := Option.some.inj parent
      rw [root₁] at block
      obtain rfl : oneBin i = rs := Option.some.inj block
      exact (insertRec_oneBin nonzero j).symm ▸ Option.some_ne_none _
  have noStale : NoStale m₁ (.open_ filePath (oCreat ||| oRdwr)) := by
    obtain ⟨r, p, -, run, -⟩ := shown
    exact ⟨r, p, run⟩
  have notSync : Call.open_ filePath (oCreat ||| oRdwr) ≠ .sync := by
    intro same
    cases same
  obtain ⟨r, m, run⟩ := noStale.run notSync
  obtain ⟨⟨M, stands₁⟩, -⟩ := checked.2.2.viewed checked.1 stands run₁
  obtain ⟨-, seen⟩ := noStale.viewed notSync stands₁ run
  obtain ⟨V', D', rep', consistent', post⟩ := exec_post rep₁ consistent₁ (growing.1.safe rep₁ consistent₁) seen
  have used : (V₁.inode 1).mode ≠ 0 := by
    rw [root]
    exact fresh.root_mode
  obtain ⟨value, roomy, avail'⟩ := post.2.opens missing roomy₁ (fresh.spare free inodes₁ counts₁ kept₁) used root₁ nonzero
    (by rw [fds₁]; exact fresh.fds 2)
  have few : (inodeAt (viewed m₁) 1).indirect = 0 := by
    obtain ⟨img', s', V', made', mounted'', rep', -, -, few⟩ := growing_128
    obtain rfl := Option.some.inj (made'.symm.trans made)
    obtain rfl := (Prod.mk.inj (Option.some.inj (mounted''.symm.trans mounted'))).2
    rw [rep₁.inode 1 consistent₁.root, root, ← rep.inode 1 consistent.root]
    exact few
  exact ⟨img, m₀, m₁, m, r₁, r, V', D', made, mounted, ⟨checked, run₁, noStale, run, growing, ⟨w, walked⟩, rfl, few, seen, value.1, value.2⟩,
    shown_after notSync run shown rep', rep', consistent', roomy, by omega⟩

end SwiftBSD.Proof.Fs
