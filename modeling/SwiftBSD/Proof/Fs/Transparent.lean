import SwiftBSD.Proof.Fs.Cache
import SwiftBSD.Proof.Fs.Fresh
import SwiftBSD.Proof.Fs.Simulation

namespace SwiftBSD.Proof.Fs
open Lib Lib.WriteBack SwiftBSD.Fs SwiftBSD.Fs.Io

variable {c d : Cache} {L M : Nat → Block} {b : Nat} {i : Fin 64}

def HoldsBlock (c : Cache) (i : Fin 64) (b : Nat) : Prop := (c.entry i).valid = true ∧ (c.entry i).block = b

theorem HoldsBlock.data (stands : Stands c L) (holds : HoldsBlock c i b) : (c.entry i).data = L b := by
  rw [stands.data holds.1, holds.2]

theorem HoldsBlock.mark (holds : HoldsBlock c i b) (b' : Nat) : HoldsBlock (c.cacheMarkDirty b' 0) i b := by
  obtain ⟨touched, -⟩ := @cacheMarkDirty_entry c b' i
  exact ⟨touched.valid.trans holds.1, touched.block.trans holds.2⟩

theorem HoldsBlock.put (holds : HoldsBlock c i b) (b' : Nat) (f : Block → Block) : HoldsBlock ((c.setData i f).cacheMarkDirty b' 0) i b := by
  obtain ⟨touched, -⟩ := setData_entry (b := b') (c := c) i i f
  exact HoldsBlock.mark ⟨touched.valid.trans holds.1, touched.block.trans holds.2⟩ b'

theorem Stands.mark (stands : Stands c L) (b : Nat) : Stands (c.cacheMarkDirty b 0) L := by
  cases found : c.cacheLookup b 0 with
  | none =>
      unfold Cache.cacheMarkDirty
      rw [found]
      exact stands
  | some i =>
      obtain ⟨valid, block⟩ := lookup_holds found
      have stored := @Stands.store c L b i id stands valid block
      have same : c.setData i id = c := by
        unfold Cache.setData
        rw [show ({ c.entry i with data := id (c.entry i).data } : CacheEntry) = c.entry i from rfl, Function.update_eq_self]
      rwa [same, id, Function.update_eq_self] at stored

theorem Stands.get (stands : Stands c L) (b : Nat) : Stands (c.cacheGet b 0).2 L ∧ HoldsBlock (c.cacheGet b 0).2 (c.cacheGet b 0).1 b := by
  refine ⟨stands.run (.get b), ?_⟩
  obtain ⟨i, got⟩ : ∃ i, Got ⟨c, []⟩ L b ((Drive.mk c []).cacheGet b 0 none true) i :=
    Stands.cacheGet stands fun _ => ⟨rfl, fun _ => rfl⟩
  obtain ⟨calls, eq⟩ := ideal_cacheGet c [] b
  rw [eq] at got
  obtain rfl : (c.cacheGet b 0).1 = i := Option.some.inj got.pointer
  exact ⟨got.valid, got.block⟩

def cacheOverDisk : StoreSim Cache Disk True where
  Dev := fun c d => Stands c d.block
  Held := fun b i q c _ => q = b ∧ HoldsBlock c i b
  inert := ⟨fun b _ _ stands => stands.mark b, fun absent => absurd trivial absent⟩
  marked := fun _ b' _ _ _ _ _ held => ⟨held.1, held.2.mark b'⟩
  cacheGet := fun b _ _ stands => ⟨(stands.get b).1, rfl, (stands.get b).2⟩
  load := by
    rintro b i q v c d stands ⟨rfl, holds⟩ loaded
    rw [← Option.some.inj loaded, holds.data stands]
    rfl
  put := by
    rintro b i q f c c' d stands ⟨rfl, holds⟩ written
    obtain rfl := Option.some.inj written
    exact ⟨_, rfl, stands.store holds.1 holds.2, rfl, holds.put q f⟩

def diskOverCache : StoreSim Disk Cache True where
  Dev := fun d c => Stands c d.block
  Held := fun b q i _ c => q = b ∧ HoldsBlock c i b
  inert := ⟨fun b _ _ stands => stands.mark b, fun absent => absurd trivial absent⟩
  marked := fun _ b' _ _ _ _ _ held => ⟨held.1, held.2.mark b'⟩
  cacheGet := fun b _ _ stands => ⟨(stands.get b).1, rfl, (stands.get b).2⟩
  load := by
    rintro b q i v d c stands ⟨rfl, holds⟩ loaded
    rw [← Option.some.inj loaded]
    exact congrArg some (holds.data stands)
  put := by
    rintro b q i f d d' c stands ⟨rfl, holds⟩ written
    obtain rfl := Option.some.inj written
    exact ⟨_, rfl, stands.store holds.1 holds.2, rfl, holds.put q f⟩

theorem fresh_holds {p : Fin 64 × Nat} (fresh : Pinned.fresh c p = true) : HoldsBlock c p.1 p.2 := by
  unfold Pinned.fresh CacheEntry.holds at fresh
  simp only [Bool.and_eq_true, beq_iff_eq] at fresh
  exact fresh.1

theorem Stands.unmodified (stands : Stands c L) (clean : Pinned.modified c b = false) : c.disk b = L b := by
  rcases stands.represents.backed b with same | ⟨i, l, here, key, dirty⟩
  · exact same
  · obtain ⟨valid, rfl⟩ := lines_some here
    have not := List.any_eq_false.mp clean i (List.mem_finRange i)
    unfold CacheEntry.holds at not
    have block : (c.entry i).block = b := key
    have marked : (c.entry i).dirty = true := dirty
    rw [valid, block, stands.group i valid, marked] at not
    simp at not

/-- Where no pointer goes stale, the cache is as good as the disk. -/
def pinnedOverDisk : StoreSim Pinned Disk False where
  Dev := fun p d => Stands p.cache d.block
  Held := fun b p q _ _ => p.2 = b ∧ q = b
  inert := by
    refine ⟨fun b _ _ stands => stands.mark b, fun _ b v p d stands read => ?_⟩
    change (if Pinned.modified p.cache b then none else some (p.cache.disk b)) = some v at read
    split at read
    · cases read
    · next clean =>
        rw [← Option.some.inj read, stands.unmodified (by simpa using clean)]
        rfl
  marked := fun _ _ _ _ _ _ _ held => held
  cacheGet := fun b _ _ stands => ⟨(stands.get b).1, rfl, rfl⟩
  load := by
    rintro b p q v c d stands ⟨rfl, rfl⟩ loaded
    change (if Pinned.fresh c.cache p then some (c.cache.entry p.1).data else none) = some v at loaded
    split at loaded
    · next fresh =>
        rw [← Option.some.inj loaded, (fresh_holds fresh).data stands]
        rfl
    · cases loaded
  put := by
    rintro b p q f c c' d stands ⟨rfl, rfl⟩ written
    change (if Pinned.fresh c.cache p && p.2 == p.2 then some (Pinned.mk ((c.cache.setData p.1 f).cacheMarkDirty p.2 0)) else none) = some c' at written
    split at written
    · next fresh =>
        obtain rfl := Option.some.inj written
        have holds := fresh_holds (Bool.and_eq_true_iff.mp fresh).1
        exact ⟨_, rfl, stands.store holds.1 holds.2, rfl, rfl⟩
    · cases written

/-- Where no pointer goes stale, checking them changes nothing. -/
def pinnedOverCache : StoreSim Pinned Cache False where
  Dev := fun p c => c = p.cache
  Held := fun _ p i _ _ => i = p.1
  inert := by
    refine ⟨fun b p c same => by rw [same]; rfl, fun _ b v p c same read => ?_⟩
    change (if Pinned.modified p.cache b then none else some (p.cache.disk b)) = some v at read
    split at read
    · cases read
    · rw [same]
      exact read
  marked := fun _ _ _ _ _ _ _ held => held
  cacheGet := by
    rintro b p c rfl
    exact ⟨rfl, rfl⟩
  load := by
    rintro b p i v c d rfl rfl loaded
    change (if Pinned.fresh c.cache p then some (c.cache.entry p.1).data else none) = some v at loaded
    split at loaded
    · exact loaded
    · cases loaded
  put := by
    rintro b p i f c c' d rfl rfl written
    change (if Pinned.fresh c.cache p && p.2 == b then some (Pinned.mk ((c.cache.setData p.1 f).cacheMarkDirty b 0)) else none) = some c' at written
    split at written
    · obtain rfl := Option.some.inj written
      exact ⟨_, rfl, rfl, rfl⟩
    · cases written

theorem HoldsBlock.fresh (stands : Stands c L) (holds : HoldsBlock c i b) : Pinned.fresh c (i, b) = true := by
  unfold Pinned.fresh CacheEntry.holds
  rw [holds.1, holds.2, stands.group i holds.1]
  simp

/-- A pointer that is used before the next block is asked for is not stale. -/
def cacheOverPinned : StoreSim Cache Pinned True where
  Dev := fun c p => p.cache = c ∧ ∃ L, Stands c L
  Held := fun b i p c _ => p = (i, b) ∧ HoldsBlock c i b
  inert := by
    refine ⟨?_, fun absent => absurd trivial absent⟩
    rintro b c p ⟨rfl, L, stands⟩
    exact ⟨rfl, L, stands.mark b⟩
  marked := fun _ b' _ _ _ _ _ held => ⟨held.1, held.2.mark b'⟩
  cacheGet := by
    rintro b c p ⟨rfl, L, stands⟩
    exact ⟨⟨rfl, L, (stands.get b).1⟩, rfl, (stands.get b).2⟩
  load := by
    rintro b i p v c d ⟨rfl, L, stands⟩ ⟨rfl, holds⟩ loaded
    change (if Pinned.fresh d.cache (i, b) then some (d.cache.entry i).data else none) = some v
    rw [if_pos (holds.fresh stands)]
    exact loaded
  put := by
    rintro b i p f c c' d ⟨rfl, L, stands⟩ ⟨rfl, holds⟩ written
    obtain rfl := Option.some.inj written
    refine ⟨⟨(d.cache.setData i f).cacheMarkDirty b 0⟩, ?_, ⟨rfl, _, stands.store holds.1 holds.2⟩, rfl, holds.put b f⟩
    change (if Pinned.fresh d.cache (i, b) && b == b then some (Pinned.mk ((d.cache.setData i f).cacheMarkDirty b 0)) else none) = _
    rw [holds.fresh stands, beq_self_eq_true]
    rfl

theorem steady_pinnedOverDisk : pinnedOverDisk.Steady := fun _ _ _ _ _ _ _ held => held

theorem steady_pinnedOverCache : pinnedOverCache.Steady := fun _ _ _ _ _ _ _ held => held

inductive Answers {σ : Type} [BlockStore σ] (s : FsState σ) : List (Call × Result) → FsState σ → Prop
  | start : Answers s [] s
  | call {t u : FsState σ} {rs : List (Call × Result)} {c : Call} {r : Result} (before : Answers s rs t) (run : c.exec.run t = some (r, u)) :
      Answers s (rs ++ [(c, r)]) u

/-- Calls that use a pointer only until they ask for the next block. -/
def Call.Plain : Call → Prop
  | .open_ _ flags => flags &&& oCreat = 0
  | .mkdir _ _ | .ls _ | .sync => False
  | _ => True

section Calls
variable {σ τ : Type} [BlockStore σ] [BlockStore τ] {loaded : Prop} {sim : StoreSim σ τ loaded} {call : Call}

theorem StoreSim.alike_exec (sim : StoreSim σ τ loaded) (plain : Call.Plain call) :
    Alike loaded sim.Dev (call.exec : FsM σ Result) call.exec := by
  cases call with
  | open_ path flags =>
      refine .bind (sim.alike_open _ flags ?_) fun _ => alike_pure _
      unfold openResolve
      refine .bind (sim.alike_pathWalk _) fun found => ?_
      cases found with
      | some ino => exact alike_pure _
      | none => exact .ite (fun _ => alike_pure _) fun creat => absurd plain creat
  | read fd size => exact .bind (sim.alike_swiftfs2Read _ _) fun _ => alike_pure _
  | write fd buf => exact .bind (sim.alike_swiftfs2Write _ _) fun _ => alike_pure _
  | close fd => exact .bind (sim.alike_swiftfs2Close _) fun _ => alike_pure _
  | unlink path => exact .bind (sim.alike_swiftfs2Unlink _) fun _ => alike_pure _
  | mkdir | ls | sync => exact plain.elim

def Call.Reading : Call → Prop
  | .open_ _ flags => flags &&& oCreat = 0 ∧ flags &&& oTrunc = 0
  | .read _ _ | .close _ => True
  | _ => False

theorem StoreSim.alike_reading {mem : Prop} (sim : StoreSim σ τ loaded) (reading : Call.Reading call) :
    Alike mem sim.Dev (call.exec : FsM σ Result) call.exec := by
  cases call with
  | open_ path flags => exact .bind (sim.alike_open_kept _ _ reading.1 reading.2) fun _ => alike_pure _
  | read fd size => exact .bind (sim.alike_swiftfs2Read _ _) fun _ => alike_pure _
  | close fd => exact .bind (sim.alike_swiftfs2Close _) fun _ => alike_pure _
  | write | mkdir | unlink | ls | sync => exact reading.elim

theorem StoreSim.Steady.alike_exec (steady : sim.Steady) (other : call ≠ .sync) :
    Alike loaded sim.Dev (call.exec : FsM σ Result) call.exec := by
  cases call with
  | open_ path flags => exact .bind (sim.alike_open _ _ (steady.alike_openResolve _ _)) fun _ => alike_pure _
  | read fd size => exact .bind (sim.alike_swiftfs2Read _ _) fun _ => alike_pure _
  | write fd buf => exact .bind (sim.alike_swiftfs2Write _ _) fun _ => alike_pure _
  | close fd => exact .bind (sim.alike_swiftfs2Close _) fun _ => alike_pure _
  | mkdir path mode => exact .bind (steady.alike_swiftfs2Mkdir _ _) fun _ => alike_pure _
  | unlink path => exact .bind (sim.alike_swiftfs2Unlink _) fun _ => alike_pure _
  | ls path => exact .bind (steady.alike_swiftfs2Ls _) fun _ => alike_pure _
  | sync => exact absurd rfl other

theorem Answers.follow {Dev : σ → τ → Prop} {s s' : FsState σ} {t : FsState τ} {rs : List (Call × Result)}
    (each : ∀ r ∈ rs, Alike loaded Dev (r.1.exec : FsM σ Result) r.1.exec) (agree : Agree loaded Dev s t) (run : Answers s rs s') :
    ∃ t', Answers t rs t' ∧ Agree loaded Dev s' t' := by
  induction run with
  | start => exact ⟨t, .start, agree⟩
  | call before run ih =>
      obtain ⟨t₁, before', agree₁⟩ := ih fun r member => each r (List.mem_append_left _ member)
      obtain ⟨t', run', agree'⟩ := each _ (List.mem_append_right _ (List.mem_singleton.mpr rfl)) _ t₁ _ _ agree₁ run
      exact ⟨t', .call before' run', agree'⟩

end Calls

/-- With the bitmaps in memory, plain calls have the same results whatever is in the cache, and those they have on a disk with the same
contents. -/
theorem cache_transparent {s s' t : FsState Cache} {rs : List (Call × Result)} (hs : Stands s.dev L) (ht : Stands t.dev L)
    (same : t = FsState.onto s t.dev) (bitmaps : ∀ g < s.nrGroups, s.bitmaps g ≠ none) (plain : ∀ r ∈ rs, Call.Plain r.1)
    (run : Answers s rs s') :
    ∃ t' M, Answers t rs t' ∧ t' = FsState.onto s' t'.dev ∧ Stands s'.dev M ∧ Stands t'.dev M ∧
      Answers (FsState.onto s (Disk.mk L)) rs (FsState.onto s' (Disk.mk M)) := by
  have agree : Agree True cacheOverDisk.Dev s (FsState.onto s (Disk.mk L)) := ⟨hs, rfl, fun _ => bitmaps⟩
  obtain ⟨d, run', agree'⟩ := run.follow (fun r member => cacheOverDisk.alike_exec (plain r member)) agree
  have back : Agree True diskOverCache.Dev (FsState.onto s (Disk.mk L)) t := ⟨ht, same, fun _ => bitmaps⟩
  obtain ⟨t', run'', agree''⟩ := run'.follow (fun r member => diskOverCache.alike_exec (plain r member)) back
  have onto : d = FsState.onto s' (Disk.mk d.dev.block) := agree'.same
  refine ⟨t', d.dev.block, run'', ?_, agree'.dev, agree''.dev, onto ▸ run'⟩
  rw [agree''.same, onto]
  rfl

/-- As long as no pointer goes stale and no bitmap is read from behind a modified copy, calls other than `swiftfs2_sync` have the results
over the cache that they have on a disk with the same contents. -/
theorem checked_cache {s s' : FsState Pinned} {rs : List (Call × Result)} (stands : Stands s.dev.cache L)
    (others : ∀ r ∈ rs, r.1 ≠ .sync) (run : Answers s rs s') :
    Answers (FsState.onto s s.dev.cache) rs (FsState.onto s' s'.dev.cache) ∧
      ∃ M, Answers (FsState.onto s (Disk.mk L)) rs (FsState.onto s' (Disk.mk M)) ∧ Stands s'.dev.cache M := by
  constructor
  · have agree : Agree False pinnedOverCache.Dev s (FsState.onto s s.dev.cache) := ⟨rfl, rfl, False.elim⟩
    obtain ⟨c, run', agree'⟩ := run.follow (fun r member => steady_pinnedOverCache.alike_exec (others r member)) agree
    have onto : c = FsState.onto s' s'.dev.cache := agree'.same.trans (congrArg _ agree'.dev)
    exact onto ▸ run'
  · have agree : Agree False pinnedOverDisk.Dev s (FsState.onto s (Disk.mk L)) := ⟨stands, rfl, False.elim⟩
    obtain ⟨d, run', agree'⟩ := run.follow (fun r member => steady_pinnedOverDisk.alike_exec (others r member)) agree
    exact ⟨d.dev.block, agree'.same ▸ run', agree'.dev⟩

/-- Plain calls use no stale pointer. -/
theorem plain_never_stale {s s' : FsState Cache} {rs : List (Call × Result)} (stands : Stands s.dev L)
    (bitmaps : ∀ g < s.nrGroups, s.bitmaps g ≠ none) (plain : ∀ r ∈ rs, Call.Plain r.1) (run : Answers s rs s') :
    Answers (FsState.onto s (Pinned.mk s.dev)) rs (FsState.onto s' (Pinned.mk s'.dev)) := by
  have agree : Agree True cacheOverPinned.Dev s (FsState.onto s (Pinned.mk s.dev)) := ⟨⟨rfl, L, stands⟩, rfl, fun _ => bitmaps⟩
  obtain ⟨p, run', agree'⟩ := run.follow (fun r member => cacheOverPinned.alike_exec (plain r member)) agree
  have onto : p = FsState.onto s' (Pinned.mk s'.dev) := by
    rw [agree'.same, ← agree'.dev.1]
  exact onto ▸ run'

def slashPath : CString := ⟨[slash], by decide⟩

theorem opened_128 : ∃ (s s' : FsState Cache) (L : Nat → Block) (r : Result), Stands s.dev L ∧ (∀ g < s.nrGroups, s.bitmaps g ≠ none) ∧
    Answers s [(.open_ slashPath oRdonly, r)] s' := by
  obtain ⟨img, s₀, V, made, mounted, rep, fresh, dirs⟩ := fresh_128
  have consistent := dirs (fun _ => True) fun _ _ => trivial
  have one : s₀.nrGroups = 1 := by
    have := fresh.inodes
    unfold Vol.inodes at this
    rw [rep.groups]
    omega
  obtain ⟨s, -, loads, -, refused⟩ := run_bitmapForGroup rep.layout (by omega : 0 < s₀.nrGroups)
  have rep' := loads.rep rep
  obtain ⟨r, s', run⟩ := exec_isSome (c := .open_ slashPath oRdonly) rep' consistent.refresh fun _ creat => absurd (by decide) creat
  have bitmaps : ∀ g < s.nrGroups, s.bitmaps g ≠ none := by
    intro g hg
    rw [loads.nrGroups, one] at hg
    obtain rfl : g = 0 := by omega
    exact fun absent => (refused absent).granted (rep.roomy fresh.roomy)
  have stands : Stands (Cache.boot s.dev) s.dev.block := stands_empty fun _ => rfl
  have agree : Agree True diskOverCache.Dev s (FsState.onto s (Cache.boot s.dev)) := ⟨stands, rfl, fun _ => bitmaps⟩
  have onDisk : Answers s [(.open_ slashPath oRdonly, r)] s' := .call .start run
  obtain ⟨t, run', -⟩ := onDisk.follow (fun q member => diskOverCache.alike_exec (by
    rw [List.mem_singleton.mp member]
    exact (by decide : oRdonly &&& oCreat = 0))) agree
  exact ⟨_, t, _, r, stands, bitmaps, run'⟩

theorem plain_singleton {r : Result} : ∀ q ∈ [(Call.open_ slashPath oRdonly, r)], Call.Plain q.1 := by
  intro q member
  rw [List.mem_singleton.mp member]
  exact (by decide : oRdonly &&& oCreat = 0)

theorem cache_transparent_opened : ∃ (s t : FsState Cache) (r : Result) (t' : FsState Cache), t.dev = (s.dev.cacheGet 7 0).2 ∧
    Answers t [(.open_ slashPath oRdonly, r)] t' := by
  obtain ⟨s, s', L, r, stands, bitmaps, run⟩ := opened_128
  have moved : Stands (FsState.onto s (s.dev.cacheGet 7 0).2).dev L := (stands.get 7).1
  obtain ⟨t', -, run', -⟩ := cache_transparent stands moved rfl bitmaps plain_singleton run
  exact ⟨s, _, r, t', rfl, run'⟩

theorem plain_never_stale_opened : ∃ (s : FsState Pinned) (r : Result) (s' : FsState Pinned), Answers s [(.open_ slashPath oRdonly, r)] s' := by
  obtain ⟨s, s', L, r, stands, bitmaps, run⟩ := opened_128
  exact ⟨_, r, _, plain_never_stale stands bitmaps plain_singleton run⟩

theorem checked_cache_opened : ∃ (s : FsState Pinned) (L : Nat → Block) (r : Result) (s' : FsState Pinned) (M : Nat → Block),
    Answers (FsState.onto s (Disk.mk L)) [(.open_ slashPath oRdonly, r)] (FsState.onto s' (Disk.mk M)) := by
  obtain ⟨s, s', L, r, stands, bitmaps, run⟩ := opened_128
  have agree : Agree True cacheOverPinned.Dev s (FsState.onto s (Pinned.mk s.dev)) := ⟨⟨rfl, L, stands⟩, rfl, fun _ => bitmaps⟩
  obtain ⟨p, checked, -⟩ := run.follow (fun q member => cacheOverPinned.alike_exec (plain_singleton q member)) agree
  have others : ∀ q ∈ [(Call.open_ slashPath oRdonly, r)], q.1 ≠ .sync := by
    intro q member
    rw [List.mem_singleton.mp member]
    exact fun same => nomatch same
  obtain ⟨-, M, run', -⟩ := checked_cache (L := L) (s := FsState.onto s (Pinned.mk s.dev)) stands others checked
  exact ⟨_, L, r, p, M, run'⟩

end SwiftBSD.Proof.Fs
