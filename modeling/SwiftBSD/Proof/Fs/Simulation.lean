import SwiftBSD.Fs.Call
import SwiftBSD.Lib.Simulate

namespace SwiftBSD.Proof.Fs
open Lib SwiftBSD.Fs

variable {σ τ : Type}

def FsState.onto (s : FsState σ) (d : τ) : FsState τ := ⟨d, s.sb, s.mounted, s.nrGroups, s.gd, s.bitmaps, s.currGroup, s.fds, s.heap⟩

/-- The states agree but for their stores; if `loaded`, every bitmap is in memory. -/
structure Agree (loaded : Prop) (Dev : σ → τ → Prop) (s : FsState σ) (t : FsState τ) : Prop where
  dev : Dev s.dev t.dev
  same : t = FsState.onto s t.dev
  bitmaps : loaded → ∀ g < s.nrGroups, s.bitmaps g ≠ none

variable {α : Type} {loaded : Prop} {Dev Dev' : σ → τ → Prop}

theorem Agree.imp {s : FsState σ} {t : FsState τ} (agree : Agree loaded Dev s t) (imp : ∀ c d, Dev c d → Dev' c d) : Agree loaded Dev' s t :=
  ⟨imp _ _ agree.dev, agree.same, agree.bitmaps⟩

/-- Two programs that have the same results over related stores. -/
abbrev Alike (loaded : Prop) (Dev : σ → τ → Prop) (x : FsM σ α) (y : FsM τ α) : Prop :=
  Follows (Agree loaded Dev) (Agree loaded Dev) x y

theorem alike_pure (a : α) : Alike loaded Dev (pure a : FsM σ α) (pure a) := .pure a fun _ _ => id

theorem alike_get {R : FsState σ → FsState τ → Prop} {f : FsState σ → FsM σ α} {g : FsState τ → FsM τ α}
    (rest : ∀ s d, Agree loaded Dev s (FsState.onto s d) → Follows (Agree loaded Dev) R (f s) (g (FsState.onto s d))) :
    Follows (Agree loaded Dev) R (get >>= f) (get >>= g) := by
  refine .get_bind fun s t agree => ?_
  have := agree.same
  rw [this]
  exact rest s t.dev (this ▸ agree)

theorem alike_modify {f : FsState σ → FsState σ} {g : FsState τ → FsState τ} (onto : ∀ s (d : τ), g (FsState.onto s d) = FsState.onto (f s) d)
    (dev : ∀ s, (f s).dev = s.dev)
    (bitmaps : ∀ s, (∀ g < s.nrGroups, s.bitmaps g ≠ none) → ∀ g < (f s).nrGroups, (f s).bitmaps g ≠ none) :
    Alike loaded Dev (modify f) (modify g) := by
  intro s t a s' agree run
  cases run
  refine ⟨g t, rfl, ?_, ?_, fun h => bitmaps s (agree.bitmaps h)⟩
  · rw [agree.same, onto, dev]
    exact agree.dev
  · rw [agree.same, onto]
    rfl

theorem update_bitmaps {s : FsState σ} {k : Nat} (bm : Block) (all : ∀ g < s.nrGroups, s.bitmaps g ≠ none) :
    ∀ g < s.nrGroups, Function.update s.bitmaps k (some bm) g ≠ none := by
  intro g hg
  by_cases here : g = k
  · rw [here, Function.update_self]
    exact Option.some_ne_none _
  · rw [Function.update_of_ne here]
    exact all g hg

theorem alike_kmalloc (size : Nat) : Alike loaded Dev (kmalloc size : FsM σ Bool) (kmalloc size) := by
  rintro s t a s' ⟨dev, same, bitmaps⟩ run
  cases run
  rw [same]
  exact ⟨_, rfl, dev, rfl, bitmaps⟩

variable [BlockStore σ] [BlockStore τ]

structure Inert (loaded : Prop) (Dev : σ → τ → Prop) : Prop where
  mark : ∀ b c d, Dev c d → Dev (BlockStore.cacheMarkDirty b c) (BlockStore.cacheMarkDirty b d)
  read : ¬loaded → ∀ b v c d, Dev c d → BlockStore.readBlock b c = some v → BlockStore.readBlock b d = some v

section Inert
variable (inert : Inert loaded Dev)
include inert

theorem alike_cacheMarkDirty (b : Nat) : Alike loaded Dev (cacheMarkDirty b : FsM σ Unit) (cacheMarkDirty b) := by
  intro s t a s' agree run
  cases run
  refine ⟨_, rfl, inert.mark b _ _ agree.dev, ?_, agree.bitmaps⟩
  rw [agree.same]
  rfl

theorem alike_readBlock (absent : ¬loaded) (b : Nat) : Alike loaded Dev (readBlock b : FsM σ Block) (readBlock b) := by
  intro s t a s' agree run
  unfold readBlock at run ⊢
  rw [run_bind_some (StateT.run_get s)] at run
  rw [run_bind_some (StateT.run_get t)]
  cases read : BlockStore.readBlock b s.dev with
  | none =>
      rw [read] at run
      cases run
  | some v =>
      rw [read] at run
      cases run
      refine ⟨t, ?_, agree⟩
      rw [inert.read absent b _ _ _ agree.dev read]
      rfl

theorem alike_bitmapForGroup (g : Nat) : Alike loaded Dev (bitmapForGroup g : FsM σ (Option Block)) (bitmapForGroup g) := by
  unfold bitmapForGroup
  refine alike_get fun s d agree => ?_
  dsimp only [FsState.onto]
  refine .ite (fun _ => alike_pure _) fun inside => ?_
  cases present : s.bitmaps g with
  | some bm => exact alike_pure _
  | none =>
      have absent : ¬loaded := fun h => agree.bitmaps h g (by omega) present
      refine .bind (alike_kmalloc _) fun granted => .ite (fun _ => ?_) fun _ => alike_pure _
      refine .bind (alike_readBlock inert absent _) fun bm => ?_
      refine .bind (alike_modify (fun _ _ => rfl) (fun _ => rfl) fun s => ?_) fun _ => alike_pure _
      exact update_bitmaps bm

theorem alike_blockAllocIn (g : Nat) : Alike loaded Dev (blockAllocIn g : FsM σ (Option UInt32)) (blockAllocIn g) := by
  unfold blockAllocIn
  refine alike_get fun s d _ => ?_
  dsimp only [FsState.onto]
  refine .ite (fun _ => alike_pure _) fun _ => .bind (alike_bitmapForGroup inert g) fun bm => ?_
  cases bm with
  | none => exact alike_pure _
  | some bm =>
      dsimp only
      cases firstFrom (fun b => !bitTest bm b) 0 32768 with
      | none => exact alike_pure _
      | some b =>
          refine .bind (alike_modify (fun _ _ => rfl) (fun _ => rfl) fun s => update_bitmaps _) fun _ => ?_
          refine alike_get fun s d _ => ?_
          exact .bind (alike_cacheMarkDirty inert _) fun _ => alike_pure _

theorem alike_blockAlloc : Alike loaded Dev (blockAlloc : FsM σ UInt32) blockAlloc := by
  unfold blockAlloc
  refine alike_get fun s d _ => .bind ?_ fun _ => alike_pure _
  exact .search (fun gi => alike_blockAllocIn inert _) _ _

theorem alike_blockFree (b : UInt32) : Alike loaded Dev (blockFree b : FsM σ Unit) (blockFree b) := by
  unfold blockFree
  refine .ite (fun _ => alike_pure _) fun _ => .bind (alike_bitmapForGroup inert _) fun bm => ?_
  cases bm with
  | none => exact alike_pure _
  | some bm =>
      refine .ite (fun _ => ?_) fun _ => alike_pure _
      refine .bind (alike_modify (fun _ _ => rfl) (fun _ => rfl) fun s => update_bitmaps _) fun _ => ?_
      exact alike_get fun s d _ => alike_cacheMarkDirty inert _

theorem alike_freeBlocks (x : Inode) : Alike loaded Dev (freeBlocks x : FsM σ Inode) (freeBlocks x) := by
  unfold freeBlocks
  refine .bind (.foldlM (fun y k => ?_) _ _) fun y => ?_
  · exact .ite (fun _ => .bind (alike_blockFree inert _) fun _ => alike_pure _) fun _ => alike_pure _
  · refine .ite (fun _ => .bind (alike_blockFree inert _) fun _ => ?_) fun _ => ?_
    · exact .ite (fun _ => .bind (alike_blockFree inert _) fun _ => alike_pure _) fun _ => alike_pure _
    · exact .ite (fun _ => .bind (alike_blockFree inert _) fun _ => alike_pure _) fun _ => alike_pure _

end Inert

/-- A relation between two stores that their operations keep: `Held b p q` says that the pointers `p` and `q` lead to block `b`. What goes
wrong in the first store need not go wrong in the second. -/
structure StoreSim (σ τ : Type) [BlockStore σ] [BlockStore τ] (loaded : Prop) where
  Dev : σ → τ → Prop
  Held : Nat → BlockStore.Slot σ → BlockStore.Slot τ → σ → τ → Prop
  inert : Inert loaded Dev
  marked : ∀ b b' p q c d, Dev c d → Held b p q c d → Held b p q (BlockStore.cacheMarkDirty b' c) (BlockStore.cacheMarkDirty b' d)
  cacheGet : ∀ b c d, Dev c d → Dev (BlockStore.cacheGet b c).2 (BlockStore.cacheGet b d).2 ∧
    Held b (BlockStore.cacheGet b c).1 (BlockStore.cacheGet b d).1 (BlockStore.cacheGet b c).2 (BlockStore.cacheGet b d).2
  load : ∀ b p q v c d, Dev c d → Held b p q c d → BlockStore.load p c = some v → BlockStore.load q d = some v
  put : ∀ b p q f c c' d, Dev c d → Held b p q c d → BlockStore.put p b f c = some c' →
    ∃ d', BlockStore.put q b f d = some d' ∧ Dev c' d' ∧ Held b p q c' d'

/-- Related stores in which the pointers lead to block `b`. -/
def StoreSim.Holding (sim : StoreSim σ τ loaded) (b : Nat) (p : BlockStore.Slot σ) (q : BlockStore.Slot τ) (c : σ) (d : τ) : Prop :=
  sim.Dev c d ∧ sim.Held b p q c d

section Cached
variable (sim : StoreSim σ τ loaded) {mem : Prop}

theorem StoreSim.inertHolding (b : Nat) (p : BlockStore.Slot σ) (q : BlockStore.Slot τ) : Inert loaded (sim.Holding b p q) where
  mark := fun b' c d held => ⟨sim.inert.mark b' c d held.1, sim.marked b b' p q c d held.1 held.2⟩
  read := fun absent b' v c d held => sim.inert.read absent b' v c d held.1

theorem StoreSim.get {f : BlockStore.Slot σ → FsM σ α} {g : BlockStore.Slot τ → FsM τ α} (b : Nat)
    (rest : ∀ p q, Follows (Agree mem (sim.Holding b p q)) (Agree mem sim.Dev) (f p) (g q)) :
    Alike mem sim.Dev (Fs.cacheGet b >>= f) (Fs.cacheGet b >>= g) := by
  rintro s t a s' ⟨dev, same, bitmaps⟩ run
  have got := sim.cacheGet b _ _ dev
  have agree : Agree mem (sim.Holding b _ _) { s with dev := (BlockStore.cacheGet b s.dev).2 } { t with dev := (BlockStore.cacheGet b t.dev).2 } :=
    ⟨got, by rw [same]; rfl, bitmaps⟩
  exact rest _ _ _ _ a s' agree run

section Held
variable {b : Nat} {p : BlockStore.Slot σ} {q : BlockStore.Slot τ}

theorem StoreSim.drop {x : FsM σ α} {y : FsM τ α} (h : Alike mem sim.Dev x y) :
    Follows (Agree mem (sim.Holding b p q)) (Agree mem sim.Dev) x y :=
  h.mono (fun _ _ agree => agree.imp fun _ _ => And.left) fun _ _ => id

theorem StoreSim.alike_load : Alike mem (sim.Holding b p q) (Fs.load p : FsM σ Block) (Fs.load q) := by
  intro s t a s' agree run
  unfold Fs.load at run ⊢
  rw [run_bind_some (StateT.run_get s)] at run
  rw [run_bind_some (StateT.run_get t)]
  cases read : BlockStore.load p s.dev with
  | none =>
      rw [read] at run
      cases run
  | some v =>
      rw [read] at run
      cases run
      refine ⟨t, ?_, agree⟩
      rw [sim.load b p q _ _ _ agree.dev.1 agree.dev.2 read]
      rfl

theorem StoreSim.alike_put (f : Block → Block) : Alike mem (sim.Holding b p q) (Fs.put p b f : FsM σ Unit) (Fs.put q b f) := by
  intro s t a s' agree run
  unfold Fs.put at run ⊢
  rw [run_bind_some (StateT.run_get s)] at run
  rw [run_bind_some (StateT.run_get t)]
  cases written : BlockStore.put p b f s.dev with
  | none =>
      rw [written] at run
      cases run
  | some c =>
      rw [written] at run
      cases run
      obtain ⟨d, written', after⟩ := sim.put b p q f _ _ _ agree.dev.1 agree.dev.2 written
      rw [written']
      refine ⟨_, rfl, after, ?_, agree.bitmaps⟩
      rw [agree.same]
      rfl

theorem StoreSim.put_last {x : FsM σ α} {y : FsM τ α} (f : Block → Block) (rest : Alike mem sim.Dev x y) :
    Follows (Agree mem (sim.Holding b p q)) (Agree mem sim.Dev) (do Fs.put p b f; x) (do Fs.put q b f; y) :=
  .bind (sim.alike_put f) fun _ => sim.drop rest

theorem StoreSim.put_end (f : Block → Block) :
    Follows (Agree mem (sim.Holding b p q)) (Agree mem sim.Dev) (Fs.put p b f : FsM σ Unit) (Fs.put q b f) :=
  (sim.alike_put f).mono (fun _ _ => id) fun _ _ agree => agree.imp fun _ _ => And.left

end Held

omit [BlockStore σ] [BlockStore τ] in
theorem alike_inodeBlockAndOffset (ino : Nat) : Alike loaded Dev (inodeBlockAndOffset ino : FsM σ (Nat × Nat)) (inodeBlockAndOffset ino) := by
  unfold inodeBlockAndOffset
  refine alike_get fun s d _ => ?_
  exact .ite (fun _ => alike_pure _) fun _ => .failure

theorem StoreSim.alike_inodeRead (ino : Nat) : Alike mem sim.Dev (inodeRead ino : FsM σ Inode) (inodeRead ino) := by
  unfold inodeRead
  refine .bind (alike_inodeBlockAndOffset ino) fun place => sim.get _ fun p q => ?_
  exact .bind sim.alike_load fun v => sim.drop (alike_pure _)

theorem StoreSim.alike_inodeWrite (ino : Nat) (x : Inode) : Alike mem sim.Dev (inodeWrite ino x : FsM σ Unit) (inodeWrite ino x) := by
  unfold inodeWrite
  exact .bind (alike_inodeBlockAndOffset ino) fun place => sim.get _ fun p q => sim.put_end _

theorem StoreSim.alike_inodeAlloc (mode : UInt16) : Alike loaded sim.Dev (inodeAlloc mode : FsM σ Nat) (inodeAlloc mode) := by
  unfold inodeAlloc
  refine alike_get fun s d _ => .bind (.search (fun gi => ?_) _ _) fun _ => alike_pure _
  unfold inodeAllocIn
  refine alike_get fun s d _ => .ite (fun _ => alike_pure _) fun _ => .bind (alike_bitmapForGroup sim.inert gi) fun bm => ?_
  cases bm with
  | none => exact alike_pure _
  | some bm =>
      refine .search (fun ino => ?_) _ _
      unfold inodeTake
      refine .ite (fun _ => alike_pure _) fun _ => .bind (sim.alike_inodeRead ino) fun x => .ite (fun _ => ?_) fun _ => alike_pure _
      refine .bind (sim.alike_inodeWrite _ _) fun _ => .bind ?_ fun _ => alike_pure _
      exact alike_modify (fun _ _ => rfl) (fun _ => rfl) fun _ => id

theorem StoreSim.alike_inodeFree (ino : Nat) : Alike loaded sim.Dev (inodeFree ino : FsM σ Unit) (inodeFree ino) := by
  unfold inodeFree
  refine .ite (fun _ => alike_pure _) fun _ => .bind (sim.alike_inodeWrite _ _) fun _ => ?_
  exact alike_modify (fun _ _ => rfl) (fun _ => rfl) fun _ => id

theorem StoreSim.alike_bmapEntry (x : Inode) (l : Nat) (create : Bool) :
    Alike loaded sim.Dev (bmapEntry x l create : FsM σ UInt32) (bmapEntry x l create) := by
  unfold bmapEntry
  refine sim.get _ fun p q => .bind sim.alike_load fun v => .ite (fun _ => ?_) fun _ => sim.drop (alike_pure _)
  exact .bind (alike_blockAlloc (sim.inertHolding _ p q)) fun b => sim.put_last _ (alike_pure _)

theorem StoreSim.alike_bmapRead (x : Inode) (l : Nat) (create : Bool) :
    Alike loaded sim.Dev (bmapRead x l create : FsM σ (UInt32 × Inode)) (bmapRead x l create) := by
  unfold bmapRead
  split
  · exact .ite (fun _ => .bind (alike_blockAlloc sim.inert) fun _ => alike_pure _) fun _ => alike_pure _
  refine .ite (fun _ => .ite (fun _ => .ite (fun _ => ?_) fun _ => alike_pure _) fun _ => ?_) fun _ => alike_pure _
  · refine .bind (alike_blockAlloc sim.inert) fun ind => .ite (fun _ => alike_pure _) fun _ => sim.get _ fun p q => ?_
    exact sim.put_last _ (.bind (sim.alike_bmapEntry _ _ _) fun _ => alike_pure _)
  · exact .bind (sim.alike_bmapEntry _ _ _) fun _ => alike_pure _

/-- Without `create` no bitmap is used, in memory or not. -/
theorem StoreSim.alike_bmapRead_false (x : Inode) (l : Nat) :
    Alike mem sim.Dev (bmapRead x l false : FsM σ (UInt32 × Inode)) (bmapRead x l false) := by
  unfold bmapRead
  split
  · exact .ite (fun creates => absurd creates (by rw [Bool.and_false]; exact Bool.false_ne_true)) fun _ => alike_pure _
  refine .ite (fun _ => .ite (fun _ => .ite (fun creates => absurd creates Bool.false_ne_true) fun _ => alike_pure _) fun _ => ?_)
    fun _ => alike_pure _
  unfold bmapEntry
  refine .bind (sim.get _ fun p q => .bind sim.alike_load fun v => .ite (fun creates => absurd creates (by rw [Bool.and_false]; exact Bool.false_ne_true)) fun _ => ?_)
    fun _ => alike_pure _
  exact sim.drop (alike_pure _)

theorem StoreSim.alike_dirLookup (x : Inode) (name : List UInt8) :
    Alike mem sim.Dev (dirLookup x name : FsM σ (Option Nat)) (dirLookup x name) := by
  unfold dirLookup
  refine .bind (.search (fun bi => ?_) _ _) fun _ => alike_pure _
  refine .bind (sim.alike_bmapRead_false _ _) fun place => .ite (fun _ => alike_pure _) fun _ => sim.get _ fun p q => ?_
  refine .bind sim.alike_load fun v => sim.drop ?_
  cases lookupFrom v name 4096 0 with
  | none => exact .failure
  | some found => cases found <;> exact alike_pure _

theorem StoreSim.alike_walkFrom (ino : Nat) (components : List (List UInt8)) :
    Alike mem sim.Dev (walkFrom ino components : FsM σ (Option Nat)) (walkFrom ino components) := by
  induction components generalizing ino with
  | nil => exact alike_pure _
  | cons component rest ih =>
      unfold walkFrom
      refine .bind (sim.alike_inodeRead ino) fun x => .ite (fun _ => alike_pure _) fun _ => ?_
      refine .bind (sim.alike_dirLookup x component) fun found => ?_
      cases found with
      | none => exact alike_pure _
      | some ino => exact ih ino

theorem StoreSim.alike_pathWalk (path : List UInt8) : Alike mem sim.Dev (pathWalk path : FsM σ (Option Nat)) (pathWalk path) :=
  sim.alike_walkFrom _ _

theorem StoreSim.alike_parentWalk (path : List UInt8) :
    Alike mem sim.Dev (parentWalk path : FsM σ (Option Nat)) (parentWalk path) := by
  unfold parentWalk
  split
  · exact sim.alike_pathWalk _
  · exact alike_pure _

omit [BlockStore σ] [BlockStore τ] in
theorem alike_openFd (ino : Nat) (flags : UInt32) : Alike loaded Dev (openFd ino flags : FsM σ Int) (openFd ino flags) := by
  unfold openFd
  refine .bind (alike_get fun s d _ => alike_pure _) fun fd => ?_
  cases fd with
  | none => exact alike_pure _
  | some fd => exact .bind (alike_modify (fun _ _ => rfl) (fun _ => rfl) fun _ => id) fun _ => alike_pure _

theorem StoreSim.alike_openTrunc (ino : Nat) (x : Inode) : Alike loaded sim.Dev (openTrunc ino x : FsM σ Unit) (openTrunc ino x) := by
  unfold openTrunc
  exact .bind (alike_freeBlocks sim.inert x) fun _ => sim.alike_inodeWrite _ _

theorem StoreSim.alike_open (path : List UInt8) (flags : UInt32)
    (resolve : Alike loaded sim.Dev (openResolve path flags : FsM σ (Option Nat)) (openResolve path flags)) :
    Alike loaded sim.Dev (swiftfs2Open path flags : FsM σ Int) (swiftfs2Open path flags) := by
  unfold swiftfs2Open
  refine alike_get fun s d _ => .ite (fun _ => alike_pure _) fun _ => .bind resolve fun found => ?_
  cases found with
  | none => exact alike_pure _
  | some ino =>
      refine .bind (sim.alike_inodeRead ino) fun x => .ite (fun _ => alike_pure _) fun _ => .ite (fun _ => ?_) fun _ => alike_openFd ino flags
      exact .bind (sim.alike_openTrunc ino x) fun _ => alike_openFd ino flags

/-- An open that neither creates nor truncates uses no bitmap. -/
theorem StoreSim.alike_open_kept (path : List UInt8) (flags : UInt32) (present : flags &&& oCreat = 0) (kept : flags &&& oTrunc = 0) :
    Alike mem sim.Dev (swiftfs2Open path flags : FsM σ Int) (swiftfs2Open path flags) := by
  have resolve : Alike mem sim.Dev (openResolve path flags : FsM σ (Option Nat)) (openResolve path flags) := by
    unfold openResolve
    refine .bind (sim.alike_pathWalk _) fun found => ?_
    cases found with
    | some ino => exact alike_pure _
    | none => exact .ite (fun _ => alike_pure _) fun creat => absurd present creat
  unfold swiftfs2Open
  refine alike_get fun s d _ => .ite (fun _ => alike_pure _) fun _ => .bind resolve fun found => ?_
  cases found with
  | none => exact alike_pure _
  | some ino =>
      exact .bind (sim.alike_inodeRead ino) fun x => .ite (fun _ => alike_pure _) fun _ =>
        .ite (fun cut => absurd kept cut) fun _ => alike_openFd ino flags

theorem StoreSim.alike_readLoop (x : Inode) (pos toRead n done : Nat) (out : List UInt8) :
    Alike mem sim.Dev (readLoop x pos toRead n done out : FsM σ (List UInt8)) (readLoop x pos toRead n done out) := by
  induction n generalizing done out with
  | zero => exact alike_pure _
  | succ n ih =>
      unfold readLoop
      refine .ite (fun _ => alike_pure _) fun _ => .bind (sim.alike_bmapRead_false _ _) fun place => .ite (fun _ => alike_pure _) fun _ => ?_
      exact sim.get _ fun p q => .bind sim.alike_load fun v => sim.drop (ih _ _)

theorem StoreSim.alike_swiftfs2Read (fd : Int) (size : Nat) :
    Alike mem sim.Dev (swiftfs2Read fd size : FsM σ (Int × List UInt8)) (swiftfs2Read fd size) := by
  unfold swiftfs2Read
  refine alike_get fun s d _ => .ite (fun _ => alike_pure _) fun _ => .ite (fun _ => alike_pure _) fun _ => ?_
  refine .bind (sim.alike_inodeRead _) fun x => .ite (fun _ => alike_pure _) fun _ => ?_
  refine .bind (sim.alike_readLoop _ _ _ _ _ _) fun out => .bind ?_ fun _ => alike_pure _
  exact alike_modify (fun _ _ => rfl) (fun _ => rfl) fun _ => id

theorem StoreSim.alike_writeLoop (pos : Nat) (buf : List UInt8) (n done : Nat) (x : Inode) :
    Alike loaded sim.Dev (writeLoop pos buf n done x : FsM σ (Nat × Inode)) (writeLoop pos buf n done x) := by
  induction n generalizing done x with
  | zero => exact alike_pure _
  | succ n ih =>
      unfold writeLoop
      refine .ite (fun _ => alike_pure _) fun _ => .bind (sim.alike_bmapRead _ _ _) fun place => .ite (fun _ => alike_pure _) fun _ => ?_
      exact sim.get _ fun p q => sim.put_last _ (ih _ _)

theorem StoreSim.alike_swiftfs2Write (fd : Int) (buf : List UInt8) :
    Alike loaded sim.Dev (swiftfs2Write fd buf : FsM σ Int) (swiftfs2Write fd buf) := by
  unfold swiftfs2Write
  refine alike_get fun s d _ => .ite (fun _ => alike_pure _) fun _ => .ite (fun _ => alike_pure _) fun _ => ?_
  refine .bind (sim.alike_inodeRead _) fun x => .bind (sim.alike_writeLoop _ _ _ _ _) fun written => ?_
  refine .bind (sim.alike_inodeWrite _ _) fun _ => .bind ?_ fun _ => alike_pure _
  exact alike_modify (fun _ _ => rfl) (fun _ => rfl) fun _ => id

theorem StoreSim.alike_swiftfs2Close (fd : Int) : Alike mem sim.Dev (swiftfs2Close fd : FsM σ Int) (swiftfs2Close fd) := by
  have last : Alike mem sim.Dev (do
      modify fun s => { s with fds := Function.update s.fds fd.toNat .zero }
      return 0 : FsM σ Int) (do
      modify fun s => { s with fds := Function.update s.fds fd.toNat .zero }
      return 0) := .bind (alike_modify (fun _ _ => rfl) (fun _ => rfl) fun _ => id) fun _ => alike_pure _
  unfold swiftfs2Close
  refine alike_get fun s d _ => .ite (fun _ => alike_pure _) fun _ => .ite (fun _ => ?_) fun _ => last
  exact .bind (sim.alike_inodeRead _) fun x => .bind (sim.alike_inodeWrite _ _) fun _ => last

theorem StoreSim.alike_removeEntry (x : Inode) (name : List UInt8) :
    Alike loaded sim.Dev (removeEntry x name : FsM σ Bool) (removeEntry x name) := by
  unfold removeEntry
  refine .ite (fun _ => .failure) fun _ => .bind (.search (fun bi => ?_) _ _) fun _ => alike_pure _
  refine .bind (sim.alike_bmapRead _ _ _) fun place => .ite (fun _ => alike_pure _) fun _ => sim.get _ fun p q => ?_
  refine .bind sim.alike_load fun v => ?_
  cases removeFrom v name 4096 0 with
  | none => exact .failure
  | some found =>
      cases found with
      | none => exact sim.drop (alike_pure _)
      | some pos => exact sim.put_last _ (alike_pure _)

theorem StoreSim.alike_swiftfs2Unlink (path : List UInt8) : Alike loaded sim.Dev (swiftfs2Unlink path : FsM σ Int) (swiftfs2Unlink path) := by
  unfold swiftfs2Unlink
  refine .bind (sim.alike_parentWalk path) fun parent => ?_
  cases parent with
  | none => exact alike_pure _
  | some parent =>
      refine .bind (sim.alike_pathWalk path) fun target => ?_
      cases target with
      | none => exact alike_pure _
      | some target =>
          refine .bind (sim.alike_inodeRead _) fun _ => .bind (sim.alike_inodeRead _) fun x => .bind (sim.alike_removeEntry x _) fun found => ?_
          refine .ite (fun _ => ?_) fun _ => alike_pure _
          refine .bind (sim.alike_inodeRead _) fun y => .bind (alike_freeBlocks sim.inert y) fun _ => ?_
          exact .bind (sim.alike_inodeFree _) fun _ => alike_pure _

def StoreSim.Steady : Prop := ∀ b p q c c' d d', sim.Held b p q c d → sim.Held b p q c' d'

section Steady
variable {sim} (steady : sim.Steady)
include steady

theorem StoreSim.Steady.get {f : BlockStore.Slot σ → FsM σ α} {g : BlockStore.Slot τ → FsM τ α} (b : Nat)
    (rest : ∀ p q, (∀ c d, sim.Held b p q c d) → Alike loaded sim.Dev (f p) (g q)) :
    Alike loaded sim.Dev (Fs.cacheGet b >>= f) (Fs.cacheGet b >>= g) := by
  refine sim.get b fun p q s t a s' agree run => ?_
  have held (c : σ) (d : τ) : sim.Held b p q c d := steady b p q _ c _ d agree.dev.2
  exact rest p q held s t a s' (agree.imp fun _ _ => And.left) run

omit steady in
theorem StoreSim.alike_put_held {b : Nat} {p : BlockStore.Slot σ} {q : BlockStore.Slot τ} (held : ∀ c d, sim.Held b p q c d)
    (f : Block → Block) : Alike loaded sim.Dev (Fs.put p b f : FsM σ Unit) (Fs.put q b f) :=
  (sim.put_end f).mono (fun _ _ agree => agree.imp fun c d dev => ⟨dev, held c d⟩) fun _ _ => id

omit steady in
theorem StoreSim.alike_load_held {b : Nat} {p : BlockStore.Slot σ} {q : BlockStore.Slot τ} (held : ∀ c d, sim.Held b p q c d) :
    Alike loaded sim.Dev (Fs.load p : FsM σ Block) (Fs.load q) :=
  (sim.alike_load (b := b)).mono (fun _ _ agree => agree.imp fun c d dev => ⟨dev, held c d⟩) fun _ _ agree => agree.imp fun _ _ => And.left

omit steady in
theorem StoreSim.alike_dirLink (x : Inode) (bi : Nat) (b : UInt32) :
    Alike loaded sim.Dev (dirLink x bi b : FsM σ (Option Inode)) (dirLink x bi b) := by
  unfold dirLink
  split
  · exact alike_pure _
  refine .ite (fun _ => ?_) fun _ => alike_pure _
  dsimp only
  refine .ite (fun _ => ?_) fun _ => ?_
  · refine .bind (alike_blockAlloc sim.inert) fun ind => .ite (fun _ => alike_pure _) fun _ => sim.get _ fun p q => ?_
    exact sim.put_last _ (sim.get _ fun p q => sim.put_last _ (alike_pure _))
  · exact sim.get _ fun p q => sim.put_last _ (alike_pure _)

omit steady in
theorem StoreSim.alike_dirAddIn (b : UInt32) (reclen child : Nat) (fileType : UInt8) (name : List UInt8) :
    Alike loaded sim.Dev (dirAddIn b reclen child fileType name : FsM σ (Option Int)) (dirAddIn b reclen child fileType name) := by
  unfold dirAddIn
  refine sim.get _ fun p q => .bind sim.alike_load fun v => ?_
  cases slotFrom v reclen 4096 0 with
  | none => exact .failure
  | some found =>
      cases found with
      | none => exact sim.drop (alike_pure _)
      | some pos => exact .ite (fun _ => sim.put_last _ (alike_pure _)) fun _ => .failure

theorem StoreSim.Steady.alike_dirAddBlock (dir : Nat) (x : Inode) (bi reclen child : Nat) (fileType : UInt8) (name : List UInt8) :
    Alike loaded sim.Dev (dirAddBlock dir x bi reclen child fileType name : FsM σ Int) (dirAddBlock dir x bi reclen child fileType name) := by
  unfold dirAddBlock
  refine .bind (alike_blockAlloc sim.inert) fun b => .ite (fun _ => alike_pure _) fun _ => steady.get _ fun p q held => ?_
  refine .bind (alike_put_held held _) fun _ => .bind (sim.alike_dirLink _ _ _) fun linked => ?_
  cases linked with
  | none => exact alike_pure _
  | some y => exact .bind (sim.alike_inodeWrite _ _) fun _ => .bind (alike_put_held held _) fun _ => alike_pure _

theorem StoreSim.Steady.alike_dirAddEntry (dir : Nat) (name : List UInt8) (child : Nat) (fileType : UInt8) :
    Alike loaded sim.Dev (dirAddEntry dir name child fileType : FsM σ Int) (dirAddEntry dir name child fileType) := by
  unfold dirAddEntry
  refine .bind (sim.alike_inodeRead dir) fun x => .ite (fun _ => .failure) fun _ => .bind (.search (fun bi => ?_) _ _) fun done => ?_
  · refine .bind (sim.alike_bmapRead _ _ _) fun place => .ite (fun _ => ?_) fun _ => sim.alike_dirAddIn _ _ _ _ _
    exact .bind (steady.alike_dirAddBlock _ _ _ _ _ _ _) fun _ => alike_pure _
  · cases done with
    | none => exact .failure
    | some r => exact alike_pure _

theorem StoreSim.Steady.alike_openResolve (path : List UInt8) (flags : UInt32) :
    Alike loaded sim.Dev (openResolve path flags : FsM σ (Option Nat)) (openResolve path flags) := by
  unfold openResolve
  refine .bind (sim.alike_pathWalk path) fun found => ?_
  cases found with
  | some ino => exact alike_pure _
  | none =>
      refine .ite (fun _ => alike_pure _) fun _ => ?_
      unfold openCreate
      refine .bind (sim.alike_parentWalk path) fun parent => ?_
      cases parent with
      | none => exact alike_pure _
      | some parent =>
          refine .bind (sim.alike_inodeAlloc _) fun ino => .ite (fun _ => alike_pure _) fun _ => ?_
          refine .bind (steady.alike_dirAddEntry _ _ _ _) fun r => .ite (fun _ => ?_) fun _ => alike_pure _
          exact .bind (sim.alike_inodeFree _) fun _ => alike_pure _

theorem StoreSim.Steady.alike_swiftfs2Mkdir (path : List UInt8) (mode : UInt16) :
    Alike loaded sim.Dev (swiftfs2Mkdir path mode : FsM σ Int) (swiftfs2Mkdir path mode) := by
  unfold swiftfs2Mkdir
  refine alike_get fun s d _ => .ite (fun _ => alike_pure _) fun _ => .bind (sim.alike_parentWalk path) fun parent => ?_
  cases parent with
  | none => exact alike_pure _
  | some parent =>
      dsimp only
      unfold mkdirIn
      have undo (ino : Nat) : Alike loaded sim.Dev (do inodeFree ino; return -1 : FsM σ Int) (do inodeFree ino; return -1) :=
        .bind (sim.alike_inodeFree ino) fun _ => alike_pure _
      refine .bind (sim.alike_inodeAlloc _) fun ino => .ite (fun _ => alike_pure _) fun _ => ?_
      refine .bind (steady.alike_dirAddEntry _ _ _ _) fun r => .ite (fun _ => undo ino) fun _ => ?_
      refine .bind (steady.alike_dirAddEntry _ _ _ _) fun r => .ite (fun _ => undo ino) fun _ => ?_
      exact .bind (steady.alike_dirAddEntry _ _ _ _) fun r => .ite (fun _ => undo ino) fun _ => alike_pure _

omit steady in
theorem StoreSim.alike_lsBlock {b : Nat} {p : BlockStore.Slot σ} {q : BlockStore.Slot τ} (held : ∀ c d, sim.Held b p q c d) (n pos : Nat)
    (out : List LsEntry) : Alike loaded sim.Dev (lsBlock p n pos out : FsM σ (List LsEntry)) (lsBlock q n pos out) := by
  induction n generalizing pos out with
  | zero => exact alike_pure _
  | succ n ih =>
      unfold lsBlock
      refine .ite (fun _ => alike_pure _) fun _ => .ite (fun _ => .failure) fun _ => .bind (alike_load_held held) fun v => ?_
      refine .ite (fun _ => alike_pure _) fun _ => .ite (fun _ => alike_pure _) fun _ => .ite (fun _ => .failure) fun _ => ?_
      exact .bind (sim.alike_inodeRead _) fun x => .bind (alike_load_held held) fun v => ih _ _

theorem StoreSim.Steady.alike_swiftfs2Ls (path : List UInt8) :
    Alike loaded sim.Dev (swiftfs2Ls path : FsM σ (Int × List LsEntry)) (swiftfs2Ls path) := by
  have blocks (x : Inode) (n bi : Nat) (out : List LsEntry) :
      Alike loaded sim.Dev (lsBlocks x n bi out : FsM σ (List LsEntry)) (lsBlocks x n bi out) := by
    induction n generalizing bi out with
    | zero => exact alike_pure _
    | succ n ih =>
        unfold lsBlocks
        refine .bind (sim.alike_bmapRead _ _ _) fun place => .ite (fun _ => alike_pure _) fun _ => steady.get _ fun p q held => ?_
        exact .bind (alike_lsBlock held _ _ _) fun out => ih _ _
  unfold swiftfs2Ls
  refine alike_get fun s d _ => .ite (fun _ => alike_pure _) fun _ => .bind (sim.alike_pathWalk path) fun found => ?_
  cases found with
  | none => exact alike_pure _
  | some ino =>
      refine .bind (sim.alike_inodeRead ino) fun x => .ite (fun _ => alike_pure _) fun _ => ?_
      exact .bind (blocks _ _ _ _) fun out => alike_pure _

end Steady

end Cached

end SwiftBSD.Proof.Fs
