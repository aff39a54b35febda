import SwiftBSD.Fs.Swiftfs2

namespace SwiftBSD.Proof.Fs
open Lib SwiftBSD.Fs

variable {σ : Type} [BlockStore σ]

abbrev KeepsFds {α : Type} (x : FsM σ α) : Prop := Keeps FsState.fds x

theorem keepsFds_cacheGet (b : Nat) : KeepsFds (cacheGet b : FsM σ _) := by
  intro s a t run
  cases run
  rfl

theorem keepsFds_load (slot : BlockStore.Slot σ) : KeepsFds (load slot : FsM σ _) := by
  unfold load
  refine .bind .get fun s => ?_
  split
  · exact .pure _
  · exact .failure

theorem keepsFds_put (slot : BlockStore.Slot σ) (b : Nat) (f : Block → Block) : KeepsFds (put slot b f : FsM σ _) := by
  intro s a t run
  unfold put at run
  rw [run_bind_some (x := get) rfl] at run
  split at run
  · cases run
    rfl
  · cases run

theorem keepsFds_cacheMarkDirty (b : Nat) : KeepsFds (cacheMarkDirty b : FsM σ _) := .modify fun _ => rfl

theorem keepsFds_readBlock (b : Nat) : KeepsFds (readBlock b : FsM σ _) := by
  unfold readBlock
  refine .bind .get fun s => ?_
  split
  · exact .pure _
  · exact .failure

omit [BlockStore σ] in
theorem keepsFds_kmalloc (size : Nat) : KeepsFds (kmalloc size : FsM σ _) := by
  intro s a t run
  cases run
  rfl

theorem keepsFds_bitmapForGroup (g : Nat) : KeepsFds (bitmapForGroup g : FsM σ _) := by
  unfold bitmapForGroup
  refine .bind .get fun s => ?_
  split
  · exact .pure _
  split
  · exact .pure _
  · refine .bind (keepsFds_kmalloc _) fun granted => ?_
    split
    · refine .bind (keepsFds_readBlock _) fun bm => ?_
      exact .bind (.modify fun _ => rfl) fun _ => .pure _
    · exact .pure _

theorem keepsFds_blockAlloc : KeepsFds (blockAlloc : FsM σ _) := by
  unfold blockAlloc
  refine .bind .get fun s => .bind (.search (fun gi => ?_) _ _) fun _ => .pure _
  unfold blockAllocIn
  refine .bind .get fun s => ?_
  split
  · exact .pure _
  refine .bind (keepsFds_bitmapForGroup _) fun bm => ?_
  split
  · exact .pure _
  split
  · exact .pure _
  · refine .bind (.modify fun _ => rfl) fun _ => ?_
    exact .bind .get fun _ => .bind (keepsFds_cacheMarkDirty _) fun _ => .pure _

theorem keepsFds_blockFree (b : UInt32) : KeepsFds (blockFree b : FsM σ _) := by
  unfold blockFree
  split
  · exact .pure _
  refine .bind (keepsFds_bitmapForGroup _) fun bm => ?_
  split
  · exact .pure _
  split
  · refine .bind (.modify fun _ => rfl) fun _ => ?_
    exact .bind .get fun _ => keepsFds_cacheMarkDirty _
  · exact .pure _

omit [BlockStore σ] in
theorem keepsFds_inodeBlockAndOffset (ino : Nat) : KeepsFds (inodeBlockAndOffset ino : FsM σ _) := by
  unfold inodeBlockAndOffset
  refine .bind .get fun s => ?_
  dsimp only
  split
  · exact .pure _
  · exact .failure

theorem keepsFds_inodeRead (ino : Nat) : KeepsFds (inodeRead ino : FsM σ _) := by
  unfold inodeRead
  refine .bind (keepsFds_inodeBlockAndOffset ino) fun place => ?_
  exact .bind (keepsFds_cacheGet _) fun slot => .bind (keepsFds_load slot) fun _ => .pure _

theorem keepsFds_inodeWrite (ino : Nat) (x : Inode) : KeepsFds (inodeWrite ino x : FsM σ _) := by
  unfold inodeWrite
  refine .bind (keepsFds_inodeBlockAndOffset ino) fun place => ?_
  exact .bind (keepsFds_cacheGet _) fun slot => keepsFds_put slot _ _

theorem keepsFds_inodeAlloc (mode : UInt16) : KeepsFds (inodeAlloc mode : FsM σ _) := by
  unfold inodeAlloc
  refine .bind .get fun s => .bind (.search (fun gi => ?_) _ _) fun _ => .pure _
  unfold inodeAllocIn
  refine .bind .get fun s => ?_
  split
  · exact .pure _
  refine .bind (keepsFds_bitmapForGroup _) fun bm => ?_
  split
  · exact .pure _
  refine .search (fun ino => ?_) _ _
  unfold inodeTake
  split
  · exact .pure _
  refine .bind (keepsFds_inodeRead _) fun x => ?_
  split
  · exact .bind (keepsFds_inodeWrite _ _) fun _ => .bind (.modify fun _ => rfl) fun _ => .pure _
  · exact .pure _

theorem keepsFds_inodeFree (ino : Nat) : KeepsFds (inodeFree ino : FsM σ _) := by
  unfold inodeFree
  split
  · exact .pure _
  · exact .bind (keepsFds_inodeWrite _ _) fun _ => .modify fun _ => rfl

theorem keepsFds_bmapEntry (x : Inode) (l : Nat) (create : Bool) : KeepsFds (bmapEntry x l create : FsM σ _) := by
  unfold bmapEntry
  refine .bind (keepsFds_cacheGet _) fun slot => .bind (keepsFds_load slot) fun t => ?_
  dsimp only
  split
  · exact .bind keepsFds_blockAlloc fun b => .bind (keepsFds_put _ _ _) fun _ => .pure _
  · exact .pure _

theorem keepsFds_bmapRead (x : Inode) (l : Nat) (create : Bool) : KeepsFds (bmapRead x l create : FsM σ _) := by
  unfold bmapRead
  split
  · split
    · exact .bind keepsFds_blockAlloc fun b => .pure _
    · exact .pure _
  split
  · split
    · split
      · refine .bind keepsFds_blockAlloc fun ind => ?_
        split
        · exact .pure _
        · refine .bind (keepsFds_cacheGet _) fun slot => .bind (keepsFds_put _ _ _) fun _ => ?_
          exact .bind (keepsFds_bmapEntry _ _ _) fun _ => .pure _
      · exact .pure _
    · exact .bind (keepsFds_bmapEntry _ _ _) fun _ => .pure _
  · exact .pure _

theorem keepsFds_dirLookup (x : Inode) (name : List UInt8) : KeepsFds (dirLookup x name : FsM σ _) := by
  unfold dirLookup
  refine .bind (.search (fun bi => ?_) _ _) fun _ => .pure _
  refine .bind (keepsFds_bmapRead _ _ _) fun place => ?_
  dsimp only
  split
  · exact .pure _
  refine .bind (keepsFds_cacheGet _) fun slot => .bind (keepsFds_load slot) fun b => ?_
  split
  · exact .failure
  · exact .pure _
  · exact .pure _

theorem keepsFds_walkFrom (ino : Nat) (components : List (List UInt8)) :
    KeepsFds (walkFrom ino components : FsM σ _) := by
  induction components generalizing ino with
  | nil => exact .pure _
  | cons component rest ih =>
      unfold walkFrom
      refine .bind (keepsFds_inodeRead _) fun x => ?_
      split
      · exact .pure _
      refine .bind (keepsFds_dirLookup _ _) fun found => ?_
      split
      · exact .pure _
      · exact ih _

theorem keepsFds_pathWalk (path : List UInt8) : KeepsFds (pathWalk path : FsM σ _) := keepsFds_walkFrom _ _

theorem keepsFds_parentWalk (path : List UInt8) : KeepsFds (parentWalk path : FsM σ _) := by
  unfold parentWalk
  split
  · exact keepsFds_pathWalk _
  · exact .pure _

theorem keepsFds_dirLink (x : Inode) (bi : Nat) (b : UInt32) : KeepsFds (dirLink x bi b : FsM σ _) := by
  unfold dirLink
  split
  · exact .pure _
  split
  · dsimp only
    split
    · refine .bind keepsFds_blockAlloc fun ind => ?_
      split
      · exact .pure _
      · refine .bind (keepsFds_cacheGet _) fun slot => .bind (keepsFds_put _ _ _) fun _ => ?_
        exact .bind (keepsFds_cacheGet _) fun slot => .bind (keepsFds_put _ _ _) fun _ => .pure _
    · exact .bind (keepsFds_cacheGet _) fun slot => .bind (keepsFds_put _ _ _) fun _ => .pure _
  · exact .pure _

theorem keepsFds_dirAddEntry (dir : Nat) (name : List UInt8) (child : Nat) (fileType : UInt8) :
    KeepsFds (dirAddEntry dir name child fileType : FsM σ _) := by
  unfold dirAddEntry
  refine .bind (keepsFds_inodeRead _) fun x => ?_
  dsimp only
  split
  · intro s a t run
    cases run
  refine .bind (.search (fun bi => ?_) _ _) fun done => ?_
  · refine .bind (keepsFds_bmapRead _ _ _) fun place => ?_
    split
    · refine .bind ?_ fun _ => .pure _
      unfold dirAddBlock
      refine .bind keepsFds_blockAlloc fun b => ?_
      split
      · exact .pure _
      refine .bind (keepsFds_cacheGet _) fun slot => .bind (keepsFds_put _ _ _) fun _ => ?_
      refine .bind (keepsFds_dirLink _ _ _) fun linked => ?_
      split
      · exact .pure _
      · exact .bind (keepsFds_inodeWrite _ _) fun _ => .bind (keepsFds_put _ _ _) fun _ => .pure _
    · unfold dirAddIn
      refine .bind (keepsFds_cacheGet _) fun slot => .bind (keepsFds_load slot) fun b => ?_
      split
      · exact .failure
      · exact .pure _
      · split
        · exact .bind (keepsFds_put _ _ _) fun _ => .pure _
        · exact .failure
  · split
    · exact .pure _
    · exact .failure

theorem keepsFds_freeBlocks (x : Inode) : KeepsFds (freeBlocks x : FsM σ _) := by
  have freed (y : Inode) (k : Fin 12) : KeepsFds (do
      if y.direct k ≠ 0 then
        blockFree (y.direct k)
        return y.setDirect k 0
      else return y : FsM σ Inode) := by
    split
    · exact .bind (keepsFds_blockFree _) fun _ => .pure _
    · exact .pure _
  unfold freeBlocks
  refine .bind (.foldlM freed _ _) fun x => ?_
  dsimp only
  split
  · refine .bind (keepsFds_blockFree _) fun _ => ?_
    split
    · exact .bind (keepsFds_blockFree _) fun _ => .pure _
    · exact .pure _
  · split
    · exact .bind (keepsFds_blockFree _) fun _ => .pure _
    · exact .pure _

theorem keepsFds_openResolve (path : List UInt8) (flags : UInt32) : KeepsFds (openResolve path flags : FsM σ _) := by
  unfold openResolve
  refine .bind (keepsFds_pathWalk _) fun found => ?_
  split
  · exact .pure _
  split
  · exact .pure _
  unfold openCreate
  refine .bind (keepsFds_parentWalk _) fun parent => ?_
  split
  · exact .pure _
  refine .bind (keepsFds_inodeAlloc _) fun ino => ?_
  split
  · exact .pure _
  refine .bind (keepsFds_dirAddEntry _ _ _ _) fun r => ?_
  split
  · exact .bind (keepsFds_inodeFree _) fun _ => .pure _
  · exact .pure _

theorem keepsFds_openTrunc (ino : Nat) (x : Inode) : KeepsFds (openTrunc ino x : FsM σ _) := by
  unfold openTrunc
  exact .bind (keepsFds_freeBlocks x) fun _ => keepsFds_inodeWrite _ _

theorem lookupFrom_ne_zero {b : Block} {name : List UInt8} {n pos ino : Nat}
    (found : lookupFrom b name n pos = some (some ino)) : ino ≠ 0 := by
  induction n generalizing pos with
  | zero => cases found
  | succ n ih =>
      unfold lookupFrom at found
      split at found
      · cases found
      split at found
      · cases found
      split at found
      · cases found
      split at found
      · cases found
      · next nonzero _ =>
          obtain ⟨is, -, rest⟩ := Option.bind_eq_some_iff.mp found
          split at rest
          · obtain rfl := Option.some.inj (Option.some.inj rest)
            exact nonzero
          · exact ih rest

theorem searchM_run_some {τ α : Type} {body : Nat → Prog τ (Option α)} {i n : Nat} {a : α} {s t : τ}
    (run : (searchM body i n).run s = some (some a, t)) : ∃ j s', (body j).run s' = some (some a, t) := by
  induction n generalizing i s with
  | zero => cases run
  | succ n ih =>
      unfold searchM at run
      obtain ⟨r, s', first, rest⟩ := run_bind_eq_some.mp run
      cases r with
      | none => exact ih rest
      | some b =>
          cases rest
          exact ⟨i, s, first⟩

theorem dirLookup_ne_zero {x : Inode} {name : List UInt8} {s t : FsState σ} {ino : Nat}
    (run : (dirLookup x name).run s = some (some ino, t)) : ino ≠ 0 := by
  unfold dirLookup at run
  obtain ⟨found, s₁, search, last⟩ := run_bind_eq_some.mp run
  cases found with
  | none => cases last
  | some r =>
      cases last
      obtain ⟨bi, s₂, body⟩ := searchM_run_some search
      obtain ⟨place, s₃, -, body⟩ := run_bind_eq_some.mp body
      dsimp only at body
      split at body
      · cases body
      obtain ⟨slot, s₄, -, body⟩ := run_bind_eq_some.mp body
      obtain ⟨b, s₅, -, body⟩ := run_bind_eq_some.mp body
      split at body
      · cases body
      · cases body
      · next found =>
          cases body
          exact lookupFrom_ne_zero found

theorem walkFrom_ne_zero {components : List (List UInt8)} {ino found : Nat} {s t : FsState σ} (nonzero : ino ≠ 0)
    (run : (walkFrom ino components).run s = some (some found, t)) : found ≠ 0 := by
  induction components generalizing ino s with
  | nil =>
      cases run
      exact nonzero
  | cons component rest ih =>
      unfold walkFrom at run
      obtain ⟨x, s₁, -, run⟩ := run_bind_eq_some.mp run
      split at run
      · cases run
      obtain ⟨next, s₂, lookup, run⟩ := run_bind_eq_some.mp run
      cases next with
      | none => cases run
      | some next => exact ih (dirLookup_ne_zero lookup) run

theorem openResolve_ne_zero {path : List UInt8} {flags : UInt32} {ino : Nat} {s t : FsState σ}
    (run : (openResolve path flags).run s = some (some ino, t)) : ino ≠ 0 := by
  unfold openResolve at run
  obtain ⟨found, s₁, walk, run⟩ := run_bind_eq_some.mp run
  cases found with
  | some found =>
      cases run
      exact walkFrom_ne_zero Nat.one_ne_zero walk
  | none =>
      dsimp only at run
      split at run
      · cases run
      unfold openCreate at run
      obtain ⟨parent, s₂, -, run⟩ := run_bind_eq_some.mp run
      cases parent with
      | none => cases run
      | some parent =>
          obtain ⟨i, s₃, -, run⟩ := run_bind_eq_some.mp run
          split at run
          · cases run
          · next nonzero =>
              obtain ⟨r, s₄, -, run⟩ := run_bind_eq_some.mp run
              split at run
              · obtain ⟨_, s₅, -, run⟩ := run_bind_eq_some.mp run
                cases run
              · cases run
                exact nonzero

/-- A free descriptor is taken and returned, or the call fails and takes none. -/
inductive TakesFd (s : FsState σ) (flags : UInt32) : Int → FsState σ → Prop
  | failed {t : FsState σ} (same : t.fds = s.fds) : TakesFd s flags (-1) t
  | took {t : FsState σ} (fd : Nat) (f : Fd) (bound : fd < 64) (free : (s.fds fd).inode = 0) (used : f.inode ≠ 0)
      (update : t.fds = Function.update s.fds fd f) (mode : f.flags = flags) : TakesFd s flags fd t

omit [BlockStore σ] in
theorem openFd_fds {ino : Nat} {flags : UInt32} {r : Int} {s t : FsState σ} (nonzero : ino ≠ 0)
    (run : (openFd ino flags).run s = some (r, t)) : TakesFd s flags r t := by
  unfold openFd at run
  obtain ⟨found, s₁, alloc, run⟩ := run_bind_eq_some.mp run
  obtain ⟨found', rfl⟩ : found = firstFrom (fun i => (s.fds i).inode == 0) 2 62 ∧ s = s₁ := by
    cases alloc
    exact ⟨rfl, rfl⟩
  cases found with
  | none =>
      cases run
      exact .failed rfl
  | some fd =>
      cases run
      obtain ⟨-, upper, free, -⟩ := firstFrom_some found'.symm
      exact .took fd ⟨ino, 0, flags, false⟩ (by omega) (by simpa using free) nonzero rfl rfl

theorem swiftfs2Open_fds {path : List UInt8} {flags : UInt32} {r : Int} {s t : FsState σ}
    (run : (swiftfs2Open path flags).run s = some (r, t)) : TakesFd s flags r t := by
  unfold swiftfs2Open at run
  rw [run_bind_some (x := get) rfl] at run
  split at run
  · cases run
    exact .failed rfl
  obtain ⟨found, s₁, resolve, run⟩ := run_bind_eq_some.mp run
  have same₁ := keepsFds_openResolve _ _ _ _ _ resolve
  cases found with
  | none =>
      cases run
      exact .failed same₁
  | some ino =>
      have nonzero := openResolve_ne_zero resolve
      obtain ⟨x, s₂, read, run⟩ := run_bind_eq_some.mp run
      have same₂ := (keepsFds_inodeRead _ _ _ _ read).trans same₁
      have last {s₃ : FsState σ} (same₃ : s₃.fds = s.fds) (run : (openFd ino flags).run s₃ = some (r, t)) :
          TakesFd s flags r t := by
        cases openFd_fds nonzero run with
        | failed same => exact .failed (same.trans same₃)
        | took fd f bound free used update mode => exact .took fd f bound (same₃ ▸ free) used (same₃ ▸ update) mode
      split at run
      · cases run
        exact .failed same₂
      dsimp only at run
      split at run
      · obtain ⟨_, s₃, trunc, run⟩ := run_bind_eq_some.mp run
        exact last ((keepsFds_openTrunc _ _ _ _ _ trunc).trans same₂) run
      · exact last same₂ run

theorem swiftfs2Close_fds {fd : Int} {r : Int} {s t : FsState σ} (run : (swiftfs2Close fd).run s = some (r, t)) :
    t.fds = if fdOpen s.fds fd then Function.update s.fds fd.toNat .zero else s.fds := by
  unfold swiftfs2Close at run
  rw [run_bind_some (x := get) rfl] at run
  cases opened : fdOpen s.fds fd with
  | false =>
      rw [opened] at run
      cases run
      rfl
  | true =>
      rw [opened] at run
      split at run
      · next impossible => cases impossible
      split at run
      · obtain ⟨x, s₁, read, run⟩ := run_bind_eq_some.mp run
        obtain ⟨_, s₂, write, run⟩ := run_bind_eq_some.mp run
        cases run
        rw [if_pos rfl, ← keepsFds_inodeRead _ _ _ _ read, ← keepsFds_inodeWrite _ _ _ _ _ write]
      · cases run
        rfl

def fdInode (s : FsState σ) (fd : Nat) : Nat := (s.fds fd).inode

def fdFlags (s : FsState σ) (fd : Nat) : UInt32 := (s.fds fd).flags

omit [BlockStore σ] in
theorem fdInode_setPos (s : FsState σ) (fd pos : Nat) : fdInode (setPos fd pos s) = fdInode s := by
  funext k
  unfold fdInode setPos
  by_cases same : k = fd
  · subst same
    simp
  · simp [same]

omit [BlockStore σ] in
theorem fdFlags_setPos (s : FsState σ) (fd pos : Nat) : fdFlags (setPos fd pos s) = fdFlags s := by
  funext k
  unfold fdFlags setPos
  by_cases same : k = fd
  · subst same
    simp
  · simp [same]

theorem keepsFds_readLoop (x : Inode) (pos toRead n done : Nat) (out : List UInt8) :
    KeepsFds (readLoop x pos toRead n done out : FsM σ _) := by
  induction n generalizing done out with
  | zero => exact .pure _
  | succ n ih =>
      unfold readLoop
      split
      · exact .pure _
      refine .bind (keepsFds_bmapRead _ _ _) fun place => ?_
      dsimp only
      split
      · exact .pure _
      · refine .bind (keepsFds_cacheGet _) fun slot => .bind (keepsFds_load slot) fun b => ?_
        exact ih _ _

theorem keepsFds_writeLoop (buf : List UInt8) (pos n done : Nat) (x : Inode) : KeepsFds (writeLoop pos buf n done x : FsM σ _) := by
  induction n generalizing done x with
  | zero => exact .pure _
  | succ n ih =>
      unfold writeLoop
      split
      · exact .pure _
      refine .bind (keepsFds_bmapRead _ _ _) fun place => ?_
      dsimp only
      split
      · exact .pure _
      · refine .bind (keepsFds_cacheGet _) fun slot => ?_
        exact .bind (keepsFds_put _ _ _) fun _ => ih _ _

section View
variable {γ : Type} {view : FsState σ → γ} (same : ∀ {s t : FsState σ}, t.fds = s.fds → view t = view s)
  (moved : ∀ s fd pos, view (setPos fd pos s) = view s)
include same moved

theorem keeps_read (fd : Int) (size : Nat) : Keeps view (swiftfs2Read fd size : FsM σ _) := by
  have keeps {α : Type} {x : FsM σ α} (keeps : KeepsFds x) : Keeps view x := fun s a t run => same (keeps s a t run)
  unfold swiftfs2Read
  refine .bind .get fun s => ?_
  dsimp only
  split
  · exact .pure _
  split
  · exact .pure _
  refine .bind (keeps (keepsFds_inodeRead _)) fun x => ?_
  split
  · exact .pure _
  · refine .bind (keeps (keepsFds_readLoop _ _ _ _ _ _)) fun out => ?_
    exact .bind (.modify fun s => moved s _ _) fun _ => .pure _

theorem keeps_write (fd : Int) (buf : List UInt8) : Keeps view (swiftfs2Write fd buf : FsM σ _) := by
  have keeps {α : Type} {x : FsM σ α} (keeps : KeepsFds x) : Keeps view x := fun s a t run => same (keeps s a t run)
  unfold swiftfs2Write
  refine .bind .get fun s => ?_
  dsimp only
  split
  · exact .pure _
  split
  · exact .pure _
  refine .bind (keeps (keepsFds_inodeRead _)) fun x => ?_
  refine .bind (keeps (keepsFds_writeLoop _ _ _ _ _)) fun done => ?_
  refine .bind (keeps (keepsFds_inodeWrite _ _)) fun _ => ?_
  exact .bind (.modify fun s => moved s _ _) fun _ => .pure _

end View

omit [BlockStore σ] in
theorem fdInode_congr {s t : FsState σ} (same : t.fds = s.fds) : fdInode t = fdInode s := by
  funext k
  rw [fdInode, same, fdInode]

omit [BlockStore σ] in
theorem fdFlags_congr {s t : FsState σ} (same : t.fds = s.fds) : fdFlags t = fdFlags s := by
  funext k
  rw [fdFlags, same, fdFlags]

theorem keeps_swiftfs2Read (fd : Int) (size : Nat) : Keeps fdInode (swiftfs2Read fd size : FsM σ _) :=
  keeps_read fdInode_congr fdInode_setPos fd size

theorem keeps_swiftfs2Write (fd : Int) (buf : List UInt8) : Keeps fdInode (swiftfs2Write fd buf : FsM σ _) :=
  keeps_write fdInode_congr fdInode_setPos fd buf

end SwiftBSD.Proof.Fs
