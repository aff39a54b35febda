import SwiftBSD.Proof.Fs.Reboot

namespace SwiftBSD.Proof.Fs
open Lib SwiftBSD.Fs

variable {R : Nat → Prop} {c : Cache} {L : Nat → Block} {b b' ino reclen child : Nat} {i j : Fin 64} {s s' : FsState Disk} {p : FsState Pinned}
  {V : Vol} {x : Inode} {name : List UInt8} {fileType : UInt8} {r : Int}

def InCache (c : Cache) (b : Nat) : Prop := ∃ i, HoldsBlock c i b

/-- Slot `j` keeps its block when `b` is asked for. -/
def Outlasts (c : Cache) (j : Fin 64) (b : Nat) : Prop := InCache c b ∨ c.next ≠ j

theorem next_mark (c : Cache) (b : Nat) : (c.cacheMarkDirty b 0).next = c.next := by
  unfold Cache.cacheMarkDirty
  split
  · rfl
  · rfl

theorem HoldsBlock.setData (holds : HoldsBlock c j b) (i : Fin 64) (b' : Nat) (f : Block → Block) :
    HoldsBlock ((c.setData i f).cacheMarkDirty b' 0) j b := by
  obtain ⟨touched, -⟩ := setData_entry (b := b') (c := c) i j f
  exact HoldsBlock.mark ⟨touched.valid.trans holds.1, touched.block.trans holds.2⟩ b'

theorem Outlasts.put (lasts : Outlasts c j b) (i : Fin 64) (b' : Nat) (f : Block → Block) :
    Outlasts ((c.setData i f).cacheMarkDirty b' 0) j b := by
  rcases lasts with ⟨k, holds⟩ | other
  · exact .inl ⟨k, holds.setData i b' f⟩
  · right
    rw [next_mark]
    exact other

theorem InCache.outlasts (cached : InCache c b) (b' : Nat) : Outlasts (c.cacheGet b' 0).2 (c.cacheGet b' 0).1 b := by
  unfold Cache.cacheGet
  split
  · exact .inl cached
  · right
    have moved : ∀ k : Fin 64, Cache.advance k ≠ k := by decide
    exact moved c.next

theorem HoldsBlock.get (stands : Stands c L) (holds : HoldsBlock c j b') (lasts : Outlasts c j b) : HoldsBlock (c.cacheGet b 0).2 j b' := by
  unfold Cache.cacheGet
  cases found : c.cacheLookup b 0 with
  | some k => exact holds
  | none =>
      have other : c.next ≠ j := by
        rcases lasts with ⟨k, valid, rfl⟩ | other
        · rw [stands.lookup valid] at found
          cases found
        · exact other
      have same : (c.replace b 0).entry j = c.entry j := Function.update_of_ne other.symm _ _
      unfold HoldsBlock
      rw [same]
      exact holds

/-- What a disk does, the cache with checked pointers does as long as a pointer is let go before the next block is asked for. -/
def diskOverPinned : StoreSim Disk Pinned True where
  Dev := fun d p => Stands p.cache d.block
  Held := fun b q p _ c => q = b ∧ p.2 = b ∧ HoldsBlock c.cache p.1 b
  inert := ⟨fun b _ _ stands => stands.mark b, fun absent => absurd trivial absent⟩
  marked := fun _ b' _ _ _ _ _ held => ⟨held.1, held.2.1, held.2.2.mark b'⟩
  cacheGet := fun b _ _ stands => ⟨(stands.get b).1, rfl, rfl, (stands.get b).2⟩
  load := by
    rintro b q ⟨i, k⟩ v d p stands ⟨rfl, rfl, holds⟩ loaded
    change (if Pinned.fresh p.cache (i, k) then some (p.cache.entry i).data else none) = some v
    rw [if_pos (holds.fresh stands), ← Option.some.inj loaded]
    exact congrArg some (holds.data stands)
  put := by
    rintro b q ⟨i, k⟩ f d d' p stands ⟨rfl, rfl, holds⟩ written
    obtain rfl := Option.some.inj written
    refine ⟨⟨(p.cache.setData i f).cacheMarkDirty k 0⟩, ?_, stands.store holds.1 holds.2, rfl, rfl, holds.put k f⟩
    change (if Pinned.fresh p.cache (i, k) && k == k then some (Pinned.mk ((p.cache.setData i f).cacheMarkDirty k 0)) else none) = _
    rw [holds.fresh stands, beq_self_eq_true]
    rfl

/-- The cache shows the blocks of the disk, and the bitmaps are in memory. -/
abbrev Shows (s : FsState Disk) (p : FsState Pinned) : Prop := Agree True diskOverPinned.Dev s p

theorem place_onto {σ τ : Type} {s : FsState σ} {place : Nat × Nat} (d : τ) (run : (inodeBlockAndOffset ino).run s = some (place, s)) :
    (inodeBlockAndOffset ino).run (FsState.onto s d) = some (place, FsState.onto s d) := by
  unfold inodeBlockAndOffset at run ⊢
  rw [run_bind_some (StateT.run_get _)] at run ⊢
  unfold FsState.onto
  by_cases listed : (s.mounted && decide (ino / 4096 < 128 * s.sb.groupDescCount.toNat)) = true
  · simp only [listed, if_true] at run ⊢
    cases run
    rfl
  · simp only [listed] at run
    cases run

theorem put_lasts {q : Fin 64 × Nat} {f : Block → Block} {p' : FsState Pinned} (lasts : Outlasts p.dev.cache j b)
    (put : (Fs.put (σ := Pinned) q b' f).run p = some ((), p')) : Outlasts p'.dev.cache j b := by
  unfold Fs.put at put
  rw [run_bind_some (StateT.run_get _)] at put
  split at put
  · next written =>
      cases put
      change (if _ then some _ else none) = _ at written
      split at written
      · cases written
        exact lasts.put _ _ _
      · cases written
  · cases put

section Inodes
variable {spot : Nat × Nat} (shown : Shows s p) (run : (inodeBlockAndOffset ino).run s = some (spot, s))
include shown run

theorem shows_place : (inodeBlockAndOffset ino).run p = some (spot, p) := by
  have := place_onto p.dev run
  rwa [← shown.same] at this

theorem shows_inodeRead (read : (inodeRead ino).run s = some (x, s')) :
    ∃ p', (inodeRead ino).run p = some (x, p') ∧ Shows s' p' ∧ InCache p'.dev.cache spot.1 := by
  obtain ⟨p', read', after⟩ := diskOverPinned.alike_inodeRead ino s p _ _ shown read
  refine ⟨p', read', after, ?_⟩
  unfold inodeRead at read'
  rw [run_bind_some (shows_place shown run)] at read'
  obtain ⟨slot, p₁, got, rest⟩ := run_bind_eq_some.mp read'
  cases got
  obtain ⟨v, p₂, loaded, last⟩ := run_bind_eq_some.mp rest
  unfold load at loaded
  rw [run_bind_some (StateT.run_get _)] at loaded
  split at loaded
  · cases loaded
    cases last
    exact ⟨_, (Stands.get shown.dev spot.1).2⟩
  · cases loaded

theorem shows_inodeWrite (holds : HoldsBlock p.dev.cache j b) (lasts : Outlasts p.dev.cache j spot.1)
    (write : (inodeWrite ino x).run s = some ((), s')) :
    ∃ p', (inodeWrite ino x).run p = some ((), p') ∧ Shows s' p' ∧ HoldsBlock p'.dev.cache j b := by
  obtain ⟨p', write', after⟩ := diskOverPinned.alike_inodeWrite ino x s p _ _ shown write
  refine ⟨p', write', after, ?_⟩
  unfold inodeWrite at write'
  rw [run_bind_some (shows_place shown run)] at write'
  obtain ⟨slot, p₁, got, put⟩ := run_bind_eq_some.mp write'
  cases got
  have kept := holds.get shown.dev lasts
  unfold Fs.put at put
  rw [run_bind_some (StateT.run_get _)] at put
  split at put
  · next written =>
      cases put
      change (if _ then some _ else none) = _ at written
      split at written
      · cases written
        exact kept.setData _ _ _
      · cases written
  · cases put

end Inodes

theorem bmapRead_first {σ : Type} [BlockStore σ] (x : Inode) : (bmapRead x 0 false : FsM σ _) = pure (x.direct ⟨0, by decide⟩, x) := by
  unfold bmapRead
  rw [dif_pos (by decide), if_neg (by simp)]

/-- `dir_add_entry` as far as the first block goes. -/
def dirAddFirst {σ : Type} [BlockStore σ] (dirIno : Nat) (name : List UInt8) (childIno : Nat) (fileType : UInt8) : FsM σ Int := do
  let dirIn ← inodeRead dirIno
  if 254 < name.length then failure
  else if dirIn.direct ⟨0, by decide⟩ = 0 then dirAddBlock dirIno dirIn 0 (entryLen name) childIno fileType name
  else do
    let added ← dirAddIn (dirIn.direct ⟨0, by decide⟩) (entryLen name) childIno fileType name
    added.elim failure pure

theorem run_dirAddFirst {σ : Type} [BlockStore σ] {s t : FsState σ} (run : (dirAddFirst ino name child fileType).run s = some (r, t)) :
    (dirAddEntry ino name child fileType).run s = some (r, t) := by
  unfold dirAddFirst at run
  unfold dirAddEntry
  obtain ⟨x, s₁, read, run⟩ := run_bind_eq_some.mp run
  rw [run_bind_some read]
  split at run
  · cases run
  · next short =>
      rw [if_neg short]
      unfold searchM
      simp only [bind_assoc]
      rw [bmapRead_first, pure_bind]
      dsimp only
      split at run
      · next zero =>
          rw [if_pos zero]
          simp only [bind_assoc]
          refine (run_bind_some run).trans ?_
          rfl
      · next present =>
          rw [if_neg present]
          obtain ⟨o, s₃, add, run⟩ := run_bind_eq_some.mp run
          refine (run_bind_some add).trans ?_
          cases o with
          | none => cases run
          | some a =>
              cases run
              rfl

section Add
variable (rep : Rep s V) (zero : V.used 0 = true) (hi : ino < V.inodes) (shown : Shows s p)
include rep zero hi shown

theorem shows_dirAddBlock (cached : InCache p.dev.cache (inodeBlock s.nrGroups ino))
    (run : (dirAddBlock ino x 0 reclen child fileType name).run s = some (r, s')) :
    ∃ p', (dirAddBlock ino x 0 reclen child fileType name).run p = some (r, p') ∧ Shows s' p' := by
  unfold dirAddBlock at run ⊢
  obtain ⟨nb, s₁, alloc, run⟩ := run_bind_eq_some.mp run
  have bound : ino < 4096 * s.nrGroups := by
    rw [rep.groups]
    exact hi
  -- `block_alloc` asks for no block, so the inode stays where it is
  have inert : Inert True fun (d : Disk) (q : Pinned) => diskOverPinned.Dev d q ∧ InCache q.cache (inodeBlock s.nrGroups ino) := by
    refine ⟨fun b d q held => ⟨held.1.mark b, ?_⟩, fun absent => absurd trivial absent⟩
    obtain ⟨k, holds⟩ := held.2
    exact ⟨k, holds.mark b⟩
  obtain ⟨p₁, alloc', after⟩ := alike_blockAlloc inert s p _ _ ⟨⟨shown.dev, cached⟩, shown.same, shown.bitmaps⟩ alloc
  rw [run_bind_some alloc']
  have shown₁ : Shows s₁ p₁ := after.imp fun _ _ => And.left
  have layout : Layout s₁ ∧ s₁.nrGroups = s.nrGroups := by
    obtain ⟨_, _, V₁, again, rep₁, took⟩ := runs_blockAlloc zero s rep
    obtain ⟨rfl, rfl⟩ := Prod.mk.inj (Option.some.inj (again.symm.trans alloc))
    refine ⟨rep₁.layout, ?_⟩
    rw [rep₁.groups, rep.groups]
    cases took with
    | none => rfl
    | some => rfl
  split at run
  · next full =>
      cases run
      rw [if_pos full]
      exact ⟨p₁, rfl, shown₁⟩
  · next nonzero =>
      rw [if_neg nonzero]
      obtain ⟨q, s₂, got, run⟩ := run_bind_eq_some.mp run
      cases got
      obtain ⟨⟨⟩, s₃, zeroed, run⟩ := run_bind_eq_some.mp run
      have held := diskOverPinned.cacheGet nb.toNat _ _ shown₁.dev
      have shown₂ : Agree True (diskOverPinned.Holding nb.toNat (BlockStore.cacheGet nb.toNat s₁.dev).1 (BlockStore.cacheGet nb.toNat p₁.dev).1)
          { s₁ with dev := (BlockStore.cacheGet nb.toNat s₁.dev).2 } { p₁ with dev := (BlockStore.cacheGet nb.toNat p₁.dev).2 } :=
        ⟨held, by rw [shown₁.same]; rfl, shown₁.bitmaps⟩
      obtain ⟨p₃, zeroed', shown₃⟩ := diskOverPinned.alike_put (fun _ => .zero) _ _ _ _ shown₂ zeroed
      have lasts := put_lasts (after.dev.2.outlasts nb.toNat) zeroed'
      have place : (inodeBlockAndOffset ino).run s₃ = some ((inodeBlock s.nrGroups ino, ino % 32 * 128), s₃) := by
        have here := run_inodeBlockAndOffset layout.1 (by rw [layout.2]; exact bound)
        rw [layout.2] at here
        cases zeroed
        exact place_onto _ here
      unfold dirLink at run ⊢
      rw [dif_pos (by decide), pure_bind] at run
      obtain ⟨⟨⟩, s₄, stored, run⟩ := run_bind_eq_some.mp run
      obtain ⟨p₄, stored', shown₄, holds⟩ :=
        shows_inodeWrite (shown₃.imp fun _ _ => And.left) place shown₃.dev.2.2.2 lasts stored
      obtain ⟨⟨⟩, s₅, record, run⟩ := run_bind_eq_some.mp run
      have shown₅ : Agree True (diskOverPinned.Holding nb.toNat (BlockStore.cacheGet nb.toNat s₁.dev).1 (BlockStore.cacheGet nb.toNat p₁.dev).1) s₄ p₄ :=
        ⟨⟨shown₄.dev, rfl, rfl, holds⟩, shown₄.same, shown₄.bitmaps⟩
      obtain ⟨p₅, record', shown₆⟩ := diskOverPinned.alike_put _ _ _ _ _ shown₅ record
      cases run
      refine ⟨p₅, (run_bind_some rfl).trans ((run_bind_some zeroed').trans ?_), shown₆.imp fun _ _ => And.left⟩
      rw [dif_pos (by decide), pure_bind]
      exact (run_bind_some stored').trans (run_bind_some record')

theorem shows_dirAddFirst (run : (dirAddFirst ino name child fileType).run s = some (r, s')) :
    ∃ p', (dirAddFirst ino name child fileType).run p = some (r, p') ∧ Shows s' p' := by
  unfold dirAddFirst at run ⊢
  have place := run_inodeBlockAndOffset rep.layout (by rw [rep.groups]; exact hi : ino < 4096 * s.nrGroups)
  obtain ⟨p₁, read, shown₁, cached⟩ := shows_inodeRead shown place (run_inodeRead rep hi)
  rw [run_bind_some (run_inodeRead rep hi)] at run
  rw [run_bind_some read]
  split at run
  · cases run
  · next short =>
      rw [if_neg short]
      split at run
      · next absent =>
          rw [if_pos absent]
          exact shows_dirAddBlock rep zero hi shown₁ cached run
      · next present =>
          rw [if_neg present]
          obtain ⟨o, s₁, add, run⟩ := run_bind_eq_some.mp run
          obtain ⟨p₂, add', shown₂⟩ := diskOverPinned.alike_dirAddIn _ _ _ _ _ s p₁ _ _ shown₁ add
          cases o with
          | none => cases run
          | some a =>
              cases run
              exact ⟨p₂, run_bind_some add', shown₂⟩

end Add

theorem dirAddFirst_of {bs : List (List Rec)} (rep : Rep s V) (dir : Directory V (V.inode ino) bs) (own : Own R V) (hi : ino < V.inodes)
    (groups : V.groups ≤ 131072) (short : name.length ≤ 254) (positive : 0 < child) (bound : child < V.inodes)
    (room : ∀ rs, bs[0]? = some rs → insertRec (entryLen name) child name rs ≠ none)
    (run : (dirAddEntry ino name child fileType).run s = some (r, s')) : (dirAddFirst ino name child fileType).run s = some (r, s') := by
  unfold dirAddEntry at run
  unfold dirAddFirst
  rw [run_bind_some (run_inodeRead rep hi), if_neg (by omega)] at run ⊢
  unfold searchM at run
  simp only [bind_assoc] at run
  rw [bmapRead_first, pure_bind] at run
  dsimp only at run
  split at run
  · next absent =>
      rw [if_pos absent]
      simp only [bind_assoc] at run
      obtain ⟨a, s₁, add, run⟩ := run_bind_eq_some.mp run
      cases run
      exact add
  · next present =>
      rw [if_neg present]
      obtain ⟨o, s₁, add, run⟩ := run_bind_eq_some.mp run
      refine (run_bind_some add).trans ?_
      cases o with
      | some a =>
          cases run
          rfl
      | none =>
          have here : fileBlock V.data (V.inode ino) 0 = ((V.inode ino).direct ⟨0, by decide⟩).toNat := by
            rw [fileBlock, dif_pos (by decide)]
          have pointer : UInt32.ofNat (fileBlock V.data (V.inode ino) 0) = (V.inode ino).direct ⟨0, by decide⟩ := by rw [here, UInt32.ofNat_toNat]
          have listed : 0 < bs.length := by
            by_contra empty
            have last := dir.last 0 (by omega)
            rw [here] at last
            exact present (uint32_eq_zero.mp last)
          have first : bs[0]? = some bs[0] := List.getElem?_eq_getElem listed
          obtain ⟨o, t, W, again, -, post⟩ :=
            @runs_dirAddIn R V ino child bs name fileType dir own hi groups short positive bound 0 bs[0] first s rep
          rw [pointer] at again
          obtain ⟨rfl, rfl⟩ := Prod.mk.inj (Option.some.inj (again.symm.trans add))
          exact (room _ first post.2).elim

/-- The checked cache shows a disk that represents the volume. -/
def Shown (p : FsState Pinned) (V : Vol) : Prop := ∃ s, Rep s V ∧ Shows s p

theorem Shown.viewed {m : FsState Cache} (shown : Shown (FsState.onto m (Pinned.mk m.dev)) V) : Rep (viewed m) V := by
  obtain ⟨d, rep, shows_⟩ := shown
  have back : FsState.onto (FsState.onto m (Pinned.mk m.dev)) d.dev = d := by
    rw [shows_.same]
    rfl
  have stands : Stands m.dev d.dev.block := shows_.dev
  rw [stands.viewed]
  rw [← back] at rep
  exact rep

section Calls
variable {K : UInt16 → Prop} {D : Nat → List (List Rec)} {q : Nat} {mode : UInt16}

theorem runs_shown {α : Type} {x : FsM Disk α} {y : FsM Pinned α} {Q : α → Vol → Prop} (alike : Alike True diskOverPinned.Dev x y)
    (runs : Runs Rep x V Q) : Runs Shown y V Q := by
  rintro p ⟨s, rep, shown⟩
  obtain ⟨a, s', V', run, rep', post⟩ := runs s rep
  obtain ⟨p', run', shown'⟩ := alike s p a s' shown run
  exact ⟨a, p', V', run', ⟨s', rep', shown'⟩, post⟩

theorem runs_shown_dirAddEntry {bs : List (List Rec)} (dir : Directory V (V.inode ino) bs) (own : Own R V) (hi : ino < V.inodes)
    (groups : V.groups ≤ 131072) (short : name.length ≤ 254) (positive : 0 < child) (bound : child < V.inodes)
    (room : ∀ rs, bs[0]? = some rs → insertRec (entryLen name) child name rs ≠ none) :
    Runs Shown (dirAddEntry ino name child fileType) V fun r V' => ∃ bs', AddPost R V ino bs name child r V' bs' := by
  rintro p ⟨s, rep, shown⟩
  obtain ⟨r, s', V', run, rep', post⟩ := runs_dirAddEntry dir own hi groups short positive bound s rep
  have first := dirAddFirst_of rep dir own hi groups short positive bound room run
  obtain ⟨p', run', shown'⟩ := shows_dirAddFirst rep own.used_zero hi shown first
  exact ⟨r, p', V', run_dirAddFirst run', ⟨s', rep', shown'⟩, post⟩

theorem runs_shown_inodeFree {i : Nat} (hi : i < V.inodes) (nonzero : i ≠ 0) : Runs Shown (inodeFree i) V fun _ _ => True :=
  (runs_shown (diskOverPinned.alike_inodeFree i) (runs_inodeFree hi nonzero)).mono fun _ _ _ => trivial

theorem runs_shown_mkdirIn (c : Consistent R K V D) (hq : q < V.inodes) (positive' : 0 < q) (used : (V.inode q).mode ≠ 0) (hK : K (V.inode q).mode)
    (short : name.length ≤ 254) (room : ∀ i rs, (D q)[0]? = some rs → insertRec (entryLen name) i name rs ≠ none) :
    Runs Shown (mkdirIn q name mode) V fun _ _ => True := by
  unfold mkdirIn
  refine .bind (runs_shown (diskOverPinned.alike_inodeAlloc (dirMode mode)) (runs_inodeAlloc (dirMode mode))) ?_
  rintro i W alloc
  cases alloc with
  | none => exact .pure trivial
  | some free first =>
      obtain ⟨positive, bound, -, unused⟩ := id free
      rw [if_neg (by omega)]
      have other : q ≠ i := by
        rintro rfl
        exact used unused
      have c₁ := c.allocIno (dirMode mode) i
      have empty : Directory (V.allocIno (dirMode mode) i) ((V.allocIno (dirMode mode) i).inode i) [] := by
        refine directory_empty (fun k => ?_) ?_
        · simp [Vol.allocIno, Vol.takeIno, Vol.setInode, Inode.zero]
        · simp [Vol.allocIno, Vol.takeIno, Vol.setInode, Inode.zero]
      refine .bind (@runs_shown_dirAddEntry R i i _ dot _ [] empty c₁.own bound c₁.bound (by decide) positive bound (fun _ none => by cases none)) ?_
      rintro r V₂ ⟨bs, add⟩
      cases add with
      | fit found => cases found
      | leak _ length => cases length
      | lost _ length => cases length
      | full =>
          rw [if_pos (by decide)]
          exact .bind (runs_shown_inodeFree (V := (V.allocIno (dirMode mode) i).exhaust) bound (by omega)) fun _ _ _ => .pure trivial
      | grow _ _ edited _ took =>
          rw [if_neg (by decide)]
          have bound₂ : i < V₂.inodes := by rw [edited.frame.inodes]; exact bound
          have hq₂ : q < V₂.inodes := by rw [edited.frame.inodes]; exact hq
          have groups₂ : V₂.groups ≤ 131072 := by rw [edited.frame.groups]; exact c.bound
          have found := @insertDir_dotdot i q positive
          refine .bind (@runs_shown_dirAddEntry R i q _ dotdot _ _ edited.dir edited.own bound₂ groups₂ (by decide) positive' hq₂ ?_) ?_
          · rintro rs here none
            cases here
            rw [insertDir, updateFirst, none] at found
            cases found
          rintro r V₃ ⟨bs, add⟩
          cases add with
          | full none => rw [List.nil_append, found] at none; cases none
          | leak none => rw [List.nil_append, found] at none; cases none
          | grow none => rw [List.nil_append, found] at none; cases none
          | lost none => rw [List.nil_append, found] at none; cases none
          | fit found' edited' data =>
              rw [List.nil_append, found] at found'
              obtain rfl := Option.some.inj found'
              rw [if_neg (by decide)]
              have made := edited.trans edited'
              have dir := c.parent_made made hq hK
              rw [Function.update_of_ne other] at dir
              have bound₃ : i < V₃.inodes := by rw [made.frame.inodes]; exact bound
              have hq₃ : q < V₃.inodes := by rw [made.frame.inodes]; exact hq
              have groups₃ : V₃.groups ≤ 131072 := by rw [made.frame.groups]; exact c.bound
              refine .bind (runs_shown_dirAddEntry dir made.own hq₃ groups₃ short positive bound₃ (room i)) ?_
              rintro r V' ⟨bs, add⟩
              split
              · exact .bind (runs_shown_inodeFree (by rw [add.inodes]; exact bound₃) (by omega)) fun _ _ _ => .pure trivial
              · exact .pure trivial

end Calls

/-- The bitmap of the first group has been read. -/
def FsState.load {σ : Type} (s : FsState σ) (bm : Block) : FsState σ :=
  { s with
    bitmaps := Function.update s.bitmaps 0 (some bm)
    heap := fun k => s.heap (k + 1) }

section Load
variable {σ : Type} [BlockStore σ] {s : FsState σ} {bm : Block} {mode : UInt16}

theorem run_bitmapForGroup_absent (inside : 0 < s.nrGroups) (absent : s.bitmaps 0 = none) (granted : s.heap 0 = true)
    (read : BlockStore.readBlock (s.gd 0).blockBitmapBlock.toNat s.dev = some bm) :
    (bitmapForGroup 0).run s = some (some bm, FsState.load s bm) := by
  have some_ : ¬ s.nrGroups ≤ 0 := by omega
  unfold bitmapForGroup
  rw [run_bind_some (StateT.run_get s), if_neg some_, absent]
  simp [kmalloc, granted, readBlock, read, FsState.load]

theorem run_bitmapForGroup_loaded (inside : 0 < s.nrGroups) (present : s.bitmaps 0 = some bm) :
    (bitmapForGroup 0).run s = some (some bm, s) := by
  have some_ : ¬ s.nrGroups ≤ 0 := by omega
  unfold bitmapForGroup
  rw [run_bind_some (StateT.run_get s), if_neg some_, present]
  rfl

theorem inodeAlloc_load (one : s.nrGroups = 1) (count : (s.gd 0).freeInodesCount ≠ 0) (absent : s.bitmaps 0 = none) (granted : s.heap 0 = true)
    (read : BlockStore.readBlock (s.gd 0).blockBitmapBlock.toNat s.dev = some bm) :
    (inodeAlloc mode).run s = (inodeAlloc mode).run (FsState.load s bm) := by
  have body : (inodeAllocIn mode 0).run s = (inodeAllocIn mode 0).run (FsState.load s bm) := by
    unfold inodeAllocIn
    rw [run_bind_some (StateT.run_get s), run_bind_some (StateT.run_get (FsState.load s bm)), if_neg count,
      if_neg (show ((FsState.load s bm).gd 0).freeInodesCount ≠ 0 from count)]
    rw [run_bind_some (run_bitmapForGroup_absent (by omega) absent granted read), run_bind_some (@run_bitmapForGroup_loaded _ _ (FsState.load s bm) bm ?_ ?_)]
    · exact Nat.lt_of_lt_of_eq Nat.one_pos one.symm
    · exact @Function.update_self Nat (fun _ => Option Block) _ 0 (some bm) s.bitmaps
  unfold inodeAlloc
  rw [run_bind_some (StateT.run_get s), run_bind_some (StateT.run_get (FsState.load s bm)), one,
    show (FsState.load s bm).nrGroups = 1 from one]
  unfold searchM
  rw [StateT.run_bind, StateT.run_bind, StateT.run_bind, StateT.run_bind, body]

end Load

section Mounted
variable {K : UInt16 → Prop} {D : Nat → List (List Rec)} {img : Disk} {heap : Nat → Bool} {m : FsState Cache} {mode : UInt16}
  (mounted : swiftfs2Mount.run (FsState.boot (Cache.boot img) heap) = some (0, m)) (rep : Rep (viewed m) V)
  (one : V.groups = 1) (roomy : V.roomy = true) (count : V.groupFreeInodes 0 ≠ 0)
include mounted rep one roomy count

theorem mounted_load : ∃ p, Shown p V.refresh ∧
    ∀ mode, (inodeAlloc mode).run (FsState.onto m (Pinned.mk m.dev)) = (inodeAlloc mode).run p := by
  obtain ⟨stands, -⟩ := mounted_viewed mounted
  obtain ⟨empty, absent⟩ : (∀ i, m.dev.entry i = .empty) ∧ m.bitmaps = fun _ => none := by
    obtain ⟨sb, -, rfl⟩ := (boot_mount raw_cache).mp mounted
    exact ⟨fun _ => rfl, rfl⟩
  have groups : m.nrGroups = 1 := rep.groups.trans one
  have counted : (m.gd 0).freeInodesCount ≠ 0 := by
    have same : (m.gd 0).freeInodesCount = V.groupFreeInodes 0 := rep.groupFreeInodes 0 (by omega)
    rwa [same]
  have granted : m.heap 0 = true := rep.roomy roomy 0
  have clean (b : Nat) : Pinned.modified m.dev b = false := by
    unfold Pinned.modified
    rw [List.any_eq_false]
    intro i _
    rw [empty i]
    simp [CacheEntry.holds, CacheEntry.empty]
  let bm := (viewed m).dev.block (m.gd 0).blockBitmapBlock.toNat
  have readDisk : BlockStore.readBlock (m.gd 0).blockBitmapBlock.toNat (viewed m).dev = some bm := rfl
  have readCache : BlockStore.readBlock (m.gd 0).blockBitmapBlock.toNat (Pinned.mk m.dev) = some bm := by
    change (if Pinned.modified m.dev _ then none else some (m.dev.disk _)) = _
    rw [clean, if_neg (by decide), stands.unmodified (clean _)]
    exact congrArg some (stands.cached _).symm
  have loaded : (bitmapForGroup 0).run (viewed m) = some (some bm, FsState.load (viewed m) bm) :=
    run_bitmapForGroup_absent (Nat.lt_of_lt_of_eq Nat.one_pos groups.symm) (congrFun absent 0) granted readDisk
  have rep₁ : Rep (FsState.load (viewed m) bm) V.refresh := by
    obtain ⟨t, run, loads, -⟩ := run_bitmapForGroup rep.layout (Nat.lt_of_lt_of_eq Nat.one_pos groups.symm : 0 < (viewed m).nrGroups)
    obtain ⟨-, rfl⟩ := Prod.mk.inj (Option.some.inj (run.symm.trans loaded))
    exact loads.rep rep
  have shown : Shows (FsState.load (viewed m) bm) (FsState.load (FsState.onto m (Pinned.mk m.dev)) bm) := by
    refine ⟨?_, rfl, fun _ g hg => ?_⟩
    · change Stands m.dev (cached m.dev)
      rw [funext stands.cached]
      exact stands
    · obtain rfl : g = 0 := by
        have : g < m.nrGroups := hg
        omega
      change Function.update m.bitmaps 0 (some bm) 0 ≠ none
      rw [Function.update_self]
      exact Option.some_ne_none bm
  refine ⟨FsState.load (FsState.onto m (Pinned.mk m.dev)) bm, ⟨_, rep₁, shown⟩, fun mode => ?_⟩
  exact @inodeAlloc_load Pinned _ (FsState.onto m (Pinned.mk m.dev)) bm mode groups counted (congrFun absent 0) granted readCache

theorem mkdir_shown {path : CString} (c : Consistent R K V D)
    (top : ∀ p : FsState Pinned, (parentWalk path.bytes).run p = some (some 1, p)) (used : (V.inode 1).mode ≠ 0) (hK : K (V.inode 1).mode)
    (short : (splitParent path.bytes).2.length ≤ 254)
    (room : ∀ i rs, (D 1)[0]? = some rs → insertRec (entryLen (splitParent path.bytes).2) i (splitParent path.bytes).2 rs ≠ none) :
    ∃ r p W, (Call.mkdir path mode).exec.run (FsState.onto m (Pinned.mk m.dev)) = some (r, p) ∧ Shown p W := by
  obtain ⟨p₁, shown, alloc⟩ := mounted_load mounted rep one roomy count
  obtain ⟨r, p, W, run, shown, -⟩ := runs_shown_mkdirIn c.refresh c.root Nat.one_pos used hK short room p₁ shown
  refine ⟨.ofValue r, p, W, ?_, shown⟩
  have inside : (mkdirIn 1 (splitParent path.bytes).2 mode).run (FsState.onto m (Pinned.mk m.dev)) = some (r, p) := by
    rw [← run]
    unfold mkdirIn
    rw [StateT.run_bind, StateT.run_bind]
    exact congrArg (· >>= _) (alloc (dirMode mode))
  unfold Call.exec swiftfs2Mkdir
  have mounted' : (FsState.onto m (Pinned.mk m.dev)).mounted = true := rep.layout.mounted
  dsimp only
  simp only [bind_assoc]
  rw [run_bind_some (StateT.run_get _), mounted']
  simp only [Bool.not_true, Bool.false_eq_true, if_false]
  simp only [bind_assoc]
  rw [run_bind_some (top _)]
  exact run_bind_some inside

end Mounted

theorem fresh_cache_128 : ∃ img m V, mkfs 128 = some img ∧ swiftfs2Mount.run (FsState.boot (Cache.boot img) fun _ => true) = some (0, m) ∧
    Rep (viewed m) V ∧ FreshVol V ∧ ∀ K : UInt16 → Prop, (∀ x : Inode, x.isDir = true → K x.mode) →
      Consistent (Geometry.Reserved (Geometry.ofMb 128)) K V rootDirs := by
  obtain ⟨img, s, V, made, mounted, rep, fresh, dirs⟩ := fresh_128
  have mounted' := mount_onto (e := Cache.boot img) raw_disk raw_cache rfl mounted
  obtain ⟨-, again⟩ := mounted_viewed mounted'
  obtain ⟨-, same⟩ := Prod.mk.inj (Option.some.inj (again.symm.trans mounted))
  exact ⟨img, _, V, made, mounted', by rwa [same], fresh, dirs⟩

theorem FreshVol.root_mode (fresh : FreshVol V) : (V.inode 1).mode ≠ 0 := by
  intro zero
  have dir := fresh.root
  rw [Inode.isDir, zero] at dir
  cases dir

def binName : List UInt8 := [0x62, 0x69, 0x6e]

theorem FreshVol.groups (fresh : FreshVol V) : V.groups = 1 := by
  have := fresh.inodes
  unfold Vol.inodes at this
  omega

theorem FreshVol.counted (fresh : FreshVol V) : V.groupFreeInodes 0 ≠ 0 := by
  rw [fresh.count]
  decide

/-- `/bin` is made on a fresh volume without a stale pointer, and the bitmaps are in memory then. -/
theorem bin_shown {R : Nat → Prop} {img : Disk} {heap : Nat → Bool} {m : FsState Cache}
    (mounted : swiftfs2Mount.run (FsState.boot (Cache.boot img) heap) = some (0, m)) (rep : Rep (viewed m) V) (fresh : FreshVol V)
    (consistent : Consistent R dirModes V rootDirs) :
    ∃ r p W, (Call.mkdir binPath 0o755).exec.run (FsState.onto m (Pinned.mk m.dev)) = some (r, p) ∧ Shown p W := by
  have room : ∀ i rs, (rootDirs 1)[0]? = some rs → insertRec (entryLen (splitParent binPath.bytes).2) i (splitParent binPath.bytes).2 rs ≠ none := by
    rintro i rs first
    obtain rfl : newDir 1 1 = rs := Option.some.inj first
    exact Option.some_ne_none _
  exact mkdir_shown mounted rep fresh.groups fresh.roomy fresh.counted consistent (fun _ => rfl) fresh.root_mode
    ((dirModes_isDir _).mpr fresh.root) (by decide) room

theorem bin_noStale {R : Nat → Prop} {img : Disk} {heap : Nat → Bool} {m : FsState Cache}
    (mounted : swiftfs2Mount.run (FsState.boot (Cache.boot img) heap) = some (0, m)) (rep : Rep (viewed m) V) (fresh : FreshVol V)
    (consistent : Consistent R dirModes V rootDirs) : NoStale m (.mkdir binPath 0o755) := by
  obtain ⟨r, p, -, run, -⟩ := bin_shown mounted rep fresh consistent
  exact ⟨r, p, run⟩

end SwiftBSD.Proof.Fs
