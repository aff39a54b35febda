import SwiftBSD.Proof.Fs.Allocator
import SwiftBSD.Proof.Fs.Fresh

namespace SwiftBSD.Proof.Fs
open Lib SwiftBSD.Fs

variable {s t u : FsState Disk} {g i j : Nat} {x : Inode} {mode : UInt16} {value : Bool}

/-- The block of the inode tables that has inode `i`. -/
def tableBlock (s : FsState Disk) (i : Nat) : Nat := ((s.gd (i / 4096)).inodeTableBlock + .ofNat (i % 4096 / 32)).toNat

def inodeIn (s : FsState Disk) (i : Nat) : Inode := .decode ((s.dev.block (tableBlock s i)).read (i % 32 * 128) 106)

/-- The inode tables of a mounted file system do not overlap, and all bitmaps are in memory. -/
structure Tables (s : FsState Disk) : Prop where
  mounted : s.mounted = true
  bound : s.nrGroups ≤ 131072
  listed : s.nrGroups ≤ 128 * s.sb.groupDescCount.toNat
  apart : ∀ i < 4096 * s.nrGroups, ∀ j < 4096 * s.nrGroups, tableBlock s i = tableBlock s j → i / 32 = j / 32
  bitmap : ∀ g < s.nrGroups, s.bitmaps g ≠ none

theorem Layout.tables (layout : Layout s) (loaded : ∀ g < s.nrGroups, s.bitmaps g ≠ none) : Tables s := by
  have block (i : Nat) (inside : i < 4096 * s.nrGroups) : tableBlock s i = inodeBlock s.nrGroups i := by
    have hg : i / 4096 < s.nrGroups := by omega
    have table := layout.table _ hg
    have small := bitmapBlock_lt layout.bound hg
    rw [tableBlock, UInt32.toNat_add, UInt32.toNat_ofNat', table, inodeBlock]
    omega
  refine ⟨layout.mounted, layout.bound, ?_, fun i hi j hj same => ?_, loaded⟩
  · rw [layout.desc, descBlocks]
    omega
  · rw [block i hi, block j hj] at same
    exact inodeBlock_inj layout.bound same

theorem run_inodeBlockAndOffset_tables (tables : Tables s) (inside : i < 4096 * s.nrGroups) :
    (inodeBlockAndOffset i : FsM Disk _).run s = some ((tableBlock s i, i % 32 * 128), s) := by
  have listed : i / 4096 < 128 * s.sb.groupDescCount.toNat := by
    have := tables.listed
    omega
  have offset : i % 4096 % 32 * 128 = i % 32 * 128 := by omega
  unfold inodeBlockAndOffset
  rw [run_bind_some (StateT.run_get s)]
  simp only [tables.mounted, listed, decide_true, Bool.and_self, if_true, offset]
  rfl

theorem run_inodeRead_tables (tables : Tables s) (inside : i < 4096 * s.nrGroups) :
    (inodeRead i).run s = some (inodeIn s i, s) := by
  unfold inodeRead
  rw [run_bind_some (run_inodeBlockAndOffset_tables tables inside), run_bind_some (run_cacheGet s _), run_bind_some (run_load s _)]
  rfl

def withInode (s : FsState Disk) (i : Nat) (x : Inode) : FsState Disk :=
  { s with dev := s.dev.set (tableBlock s i) ((s.dev.block (tableBlock s i)).write (i % 32 * 128) x.encode) }

@[simp] theorem withInode_gd : (withInode s i x).gd = s.gd := rfl

@[simp] theorem withInode_sb : (withInode s i x).sb = s.sb := rfl

theorem run_inodeWrite_tables (tables : Tables s) (inside : i < 4096 * s.nrGroups) (x : Inode) :
    (inodeWrite i x).run s = some ((), withInode s i x) := by
  unfold inodeWrite
  rw [run_bind_some (run_inodeBlockAndOffset_tables tables inside), run_bind_some (run_cacheGet s _), run_put]
  rfl

theorem inodeIn_withInode (tables : Tables s) (hi : i < 4096 * s.nrGroups) (hj : j < 4096 * s.nrGroups) (x : Inode) :
    inodeIn (withInode s i x) j = if j = i then x else inodeIn s j := by
  have block (k : Nat) : tableBlock (withInode s i x) k = tableBlock s k := rfl
  unfold inodeIn
  rw [block]
  simp only [withInode, Disk.set]
  by_cases same : j = i
  · subst same
    rw [if_pos rfl, Function.update_self, decode_write_same]
  · rw [if_neg same]
    by_cases here : tableBlock s j = tableBlock s i
    · -- another slot of the same block
      have := tables.apart j hj i hi here
      rw [here, Function.update_self, Bytes.read_write_disjoint]
      rw [length_encode]
      omega
    · rw [Function.update_of_ne here]

/-- The slots of the inode tables, with the counts of free ones. -/
def inodeTally (s : FsState Disk) : Tally where
  groups := s.nrGroups
  size := 4096
  taken := fun g k => (inodeIn s (g * 4096 + k)).mode != 0
  count := fun g => (s.gd g).freeInodesCount
  total := s.sb.freeInodes

/-- Inode `i`, free or taken before, is now `x`; the counts follow, and all other inodes are as they were. -/
structure InodeMoved (s t : FsState Disk) (i : Nat) (x : Inode) : Prop where
  nonzero : i ≠ 0
  inside : i < 4096 * s.nrGroups
  before : (inodeIn s i).mode = 0 ↔ x.mode ≠ 0
  here : inodeIn t i = x
  other : ∀ j < 4096 * s.nrGroups, j ≠ i → inodeIn t j = inodeIn s j
  tally : (inodeTally s).Moved (inodeTally t) (i / 4096) (i % 4096) (x.mode != 0)

theorem moved_of (tables : Tables s) (inside : i < 4096 * s.nrGroups) (nonzero : i ≠ 0) (before : (inodeIn s i).mode = 0 ↔ x.mode ≠ 0)
    (same : ∀ k, tableBlock t k = tableBlock s k) (dev : t.dev = (withInode s i x).dev) (groups : t.nrGroups = s.nrGroups)
    (mode : (x.mode != 0) = value)
    (count : (t.gd (i / 4096)).freeInodesCount =
      if value then (s.gd (i / 4096)).freeInodesCount - 1 else (s.gd (i / 4096)).freeInodesCount + 1)
    (others : ∀ h < s.nrGroups, h ≠ i / 4096 → (t.gd h).freeInodesCount = (s.gd h).freeInodesCount)
    (total : t.sb.freeInodes = if value then s.sb.freeInodes - 1 else s.sb.freeInodes + 1)
    (counted : value = true → (s.gd (i / 4096)).freeInodesCount ≠ 0) : InodeMoved s t i x := by
  subst mode
  have inode (j : Nat) (hj : j < 4096 * s.nrGroups) : inodeIn t j = if j = i then x else inodeIn s j := by
    rw [← inodeIn_withInode tables inside hj]
    unfold inodeIn
    rw [same, dev]
    rfl
  have number : i / 4096 * 4096 + i % 4096 = i := by omega
  refine ⟨nonzero, inside, before, by rw [inode i inside, if_pos rfl], fun j hj ne => by rw [inode j hj, if_neg ne], ?_⟩
  constructor
  · exact groups
  · rfl
  · change i / 4096 < s.nrGroups
    omega
  · exact Nat.mod_lt _ (by decide)
  · change ((inodeIn s (i / 4096 * 4096 + i % 4096)).mode != 0) = !(x.mode != 0)
    rw [number]
    by_cases free : (inodeIn s i).mode = 0
    · simp [free, before.mp free]
    · simp [free, not_not.mp (mt before.mpr free)]
  · intro h inside' k small
    change h < s.nrGroups at inside'
    change k < 4096 at small
    change ((inodeIn t (h * 4096 + k)).mode != 0) = if h = i / 4096 ∧ k = i % 4096 then x.mode != 0 else (inodeIn s (h * 4096 + k)).mode != 0
    rw [inode _ (by omega)]
    by_cases here : h * 4096 + k = i
    · rw [if_pos here, if_pos ⟨by omega, by omega⟩]
    · rw [if_neg here, if_neg fun both => here (by rw [both.1, both.2, number])]
  · exact count
  · exact others
  · exact total
  · exact counted

theorem Tables.of_same (tables : Tables s) (same : ∀ k, tableBlock t k = tableBlock s k) (mounted : t.mounted = s.mounted)
    (groups : t.nrGroups = s.nrGroups) (desc : t.sb.groupDescCount = s.sb.groupDescCount) (bitmaps : t.bitmaps = s.bitmaps) : Tables t where
  mounted := mounted.trans tables.mounted
  bound := groups ▸ tables.bound
  listed := by
    rw [groups, desc]
    exact tables.listed
  apart := by
    intro i hi j hj eq
    rw [same, same] at eq
    exact tables.apart i (groups ▸ hi) j (groups ▸ hj) eq
  bitmap := by
    rw [groups, bitmaps]
    exact tables.bitmap

theorem tableBlock_takeInode (s : FsState Disk) (g k : Nat) : tableBlock (takeInode g s) k = tableBlock s k := by
  simp only [tableBlock, takeInode, Function.update_apply]
  split
  · next here => rw [here]
  · rfl

theorem tableBlock_giveInode (s : FsState Disk) (g k : Nat) : tableBlock (giveInode g s) k = tableBlock s k := by
  simp only [tableBlock, giveInode, Function.update_apply]
  split
  · next here => rw [here]
  · rfl

theorem taken_moved (tables : Tables s) (inside : i < 4096 * s.nrGroups) (nonzero : i ≠ 0) (free : (inodeIn s i).mode = 0) (some : mode ≠ 0)
    (counted : (s.gd (i / 4096)).freeInodesCount ≠ 0) :
    Tables (takeInode (i / 4096) (withInode s i { Inode.zero with mode })) ∧
      InodeMoved s (takeInode (i / 4096) (withInode s i { Inode.zero with mode })) i { Inode.zero with mode } := by
  have same (k : Nat) : tableBlock (takeInode (i / 4096) (withInode s i { Inode.zero with mode })) k = tableBlock s k :=
    tableBlock_takeInode (withInode s i { Inode.zero with mode }) (i / 4096) k
  have isSome : (mode != 0) = true := by simpa using some
  refine ⟨tables.of_same same rfl rfl rfl rfl,
    moved_of tables inside nonzero ⟨fun _ => some, fun _ => free⟩ same rfl rfl isSome ?_ ?_ ?_ fun _ => counted⟩
  · simp only [takeInode, Function.update_self, withInode_gd, if_true]
  · intro h _ ne
    simp only [takeInode, Function.update_of_ne ne, withInode_gd]
  · simp only [takeInode, withInode_sb, if_true]

theorem given_moved (tables : Tables s) (inside : i < 4096 * s.nrGroups) (nonzero : i ≠ 0) (taken : (inodeIn s i).mode ≠ 0) :
    Tables (giveInode (i / 4096) (withInode s i .zero)) ∧ InodeMoved s (giveInode (i / 4096) (withInode s i .zero)) i .zero := by
  have same (k : Nat) : tableBlock (giveInode (i / 4096) (withInode s i .zero)) k = tableBlock s k :=
    tableBlock_giveInode (withInode s i .zero) (i / 4096) k
  have none : (Inode.zero.mode != 0) = false := rfl
  refine ⟨tables.of_same same rfl rfl rfl rfl,
    moved_of tables inside nonzero ⟨fun free => absurd free taken, fun ne => absurd rfl ne⟩ same rfl rfl none ?_ ?_ ?_
      fun true => by cases true⟩
  · simp only [giveInode, Function.update_self, withInode_gd, Bool.false_eq_true, if_false]
  · intro h _ ne
    simp only [giveInode, Function.update_of_ne ne, withInode_gd]
  · simp only [giveInode, withInode_sb, Bool.false_eq_true, if_false]

/-- Group `g` has no inode to give, by its count or by its table. -/
def NoInode (s : FsState Disk) (g : Nat) : Prop :=
  (s.gd g).freeInodesCount = 0 ∨ ∀ k < 4096, g * 4096 + k ≠ 0 → (inodeIn s (g * 4096 + k)).mode ≠ 0

theorem run_inodeTake (tables : Tables s) (inside : i < 4096 * s.nrGroups) (mode : UInt16) :
    (inodeTake mode (i / 4096) i).run s = some (if i ≠ 0 ∧ (inodeIn s i).mode = 0 then
      (some i, takeInode (i / 4096) (withInode s i { Inode.zero with mode })) else (none, s)) := by
  unfold inodeTake
  by_cases zero : i = 0
  · rw [if_pos zero, if_neg fun both => both.1 zero]
    rfl
  · rw [if_neg zero, run_bind_some (run_inodeRead_tables tables inside)]
    by_cases free : (inodeIn s i).mode = 0
    · rw [if_pos free, if_pos ⟨zero, free⟩, run_bind_some (run_inodeWrite_tables tables inside _)]
      rfl
    · rw [if_neg free, if_neg fun both => free both.2]
      rfl

def Given (s : FsState Disk) (mode : UInt16) (i : Nat) (t : FsState Disk) : Prop :=
  i ≠ 0 ∧ i < 4096 * s.nrGroups ∧ (inodeIn s i).mode = 0 ∧ (s.gd (i / 4096)).freeInodesCount ≠ 0 ∧
    t = takeInode (i / 4096) (withInode s i { Inode.zero with mode })

theorem run_inodeAllocIn (tables : Tables s) (inside : g < s.nrGroups) (mode : UInt16) :
    ∃ r t, (inodeAllocIn mode g).run s = some (r, t) ∧ (r = none ∧ t = s ∧ NoInode s g ∨ ∃ i, r = some i ∧ Given s mode i t) := by
  unfold inodeAllocIn
  rw [run_bind_some (StateT.run_get s)]
  by_cases empty : (s.gd g).freeInodesCount = 0
  · rw [if_pos empty]
    exact ⟨none, s, rfl, .inl ⟨rfl, rfl, .inl empty⟩⟩
  obtain ⟨bm, present⟩ := Option.ne_none_iff_exists'.mp (tables.bitmap g inside)
  rw [if_neg empty, run_bind_some (run_bitmapForGroup_present inside present)]
  have spec : Runs Eq (searchM (inodeTake mode g) (g * 4096) 4096) s fun r t =>
      r = none ∧ t = s ∧ NoInode s g ∨ ∃ i, r = some i ∧ Given s mode i t := by
    refine Runs.search (fun i t => t = s ∧ ∀ j, g * 4096 ≤ j → j < i → j ≠ 0 → (inodeIn s j).mode ≠ 0) ⟨rfl, fun j _ _ => by omega⟩ ?_ ?_
    · rintro i _ lower upper ⟨rfl, before⟩ t rfl
      have group : i / 4096 = g := by omega
      have inside' : i < 4096 * t.nrGroups := by omega
      have run := run_inodeTake tables inside' mode
      rw [group] at run
      by_cases free : i ≠ 0 ∧ (inodeIn t i).mode = 0
      · rw [if_pos free] at run
        refine ⟨_, _, _, run, rfl, .inr ⟨i, rfl, free.1, inside', free.2, ?_, ?_⟩⟩
        · rw [group]
          exact empty
        · rw [group]
      · rw [if_neg free] at run
        refine ⟨_, _, _, run, rfl, rfl, fun j low high => ?_⟩
        rcases Nat.lt_succ_iff_lt_or_eq.mp high with earlier | rfl
        · exact before j low earlier
        · exact fun ne zero => free ⟨ne, zero⟩
    · rintro _ ⟨rfl, all⟩
      exact .inl ⟨rfl, rfl, .inr fun k small ne => all _ (Nat.le_add_right _ _) (by omega) ne⟩
  obtain ⟨r, t, _, run, rfl, spec⟩ := spec s rfl
  exact ⟨r, t, run, spec⟩

theorem run_inodeAlloc (tables : Tables s) (mode : UInt16) :
    ∃ i t, (inodeAlloc mode).run s = some (i, t) ∧ (i = 0 ∧ t = s ∧ (∀ g < s.nrGroups, NoInode s g) ∨ Given s mode i t) := by
  have spec : Runs Eq (searchM (inodeAllocIn mode) 0 s.nrGroups) s fun r t =>
      r = none ∧ t = s ∧ (∀ g < s.nrGroups, NoInode s g) ∨ ∃ i, r = some i ∧ Given s mode i t := by
    refine Runs.search (fun g t => t = s ∧ ∀ h < g, NoInode s h) ⟨rfl, fun h _ => by omega⟩ ?_ ?_
    · rintro g _ - inside ⟨rfl, before⟩ t rfl
      obtain ⟨r, u, run, none | ⟨i, rfl, given⟩⟩ := run_inodeAllocIn tables (by omega : g < t.nrGroups) mode
      · obtain ⟨rfl, rfl, here⟩ := none
        refine ⟨_, _, _, run, rfl, rfl, fun h less => ?_⟩
        rcases Nat.lt_succ_iff_lt_or_eq.mp less with earlier | rfl
        · exact before h earlier
        · exact here
      · exact ⟨_, _, _, run, rfl, .inr ⟨i, rfl, given⟩⟩
    · rintro _ ⟨rfl, all⟩
      exact .inl ⟨rfl, rfl, fun g inside => all g (by omega)⟩
  obtain ⟨r, t, _, run, rfl, spec⟩ := spec s rfl
  have program : (inodeAlloc mode).run s = some (r.getD 0, t) := by
    unfold inodeAlloc
    rw [run_bind_some (StateT.run_get s), run_bind_some run]
    rfl
  rcases spec with ⟨rfl, rfl, none⟩ | ⟨i, rfl, given⟩
  · exact ⟨0, t, program, .inl ⟨rfl, rfl, none⟩⟩
  · exact ⟨i, t, program, .inr given⟩

theorem run_inodeFree (tables : Tables s) (inside : i < 4096 * s.nrGroups) :
    (inodeFree i).run s = some ((), if i = 0 then s else giveInode (i / 4096) (withInode s i .zero)) := by
  unfold inodeFree
  split
  · rfl
  · rw [run_bind_some (run_inodeWrite_tables tables inside _)]
    rfl

inductive InodeCall
  | alloc (mode : UInt16)
  | free (ino : Nat)

def InodeCall.run : InodeCall → FsM Disk Unit
  | .alloc mode => do let _ ← inodeAlloc mode
  | .free ino => inodeFree ino

/-- What a caller may ask for: an inode with a mode, and that an inode in use be freed. -/
def InodeCall.Valid (s : FsState Disk) : InodeCall → Prop
  | .alloc mode => mode ≠ 0
  | .free ino => ino < 4096 * s.nrGroups ∧ (inodeIn s ino).mode ≠ 0

inductive InodeRun (s : FsState Disk) : FsState Disk → Prop
  | nil : InodeRun s s
  | step {t u : FsState Disk} (before : InodeRun s t) (call : InodeCall) (valid : call.Valid t) (run : call.run.run t = some ((), u)) :
      InodeRun s u

structure InodeCalls (s : FsState Disk) : Prop where
  alloc : ∀ mode ≠ 0, ∃ i t, (inodeAlloc mode).run s = some (i, t) ∧ (i ≠ 0 → InodeMoved s t i { Inode.zero with mode }) ∧ (i = 0 → t = s) ∧
    (i = 0 → ∀ g < s.nrGroups, (s.gd g).freeInodesCount = 0 ∨ ∀ k < 4096, g * 4096 + k ≠ 0 → (inodeIn s (g * 4096 + k)).mode ≠ 0)
  free : ∀ i < 4096 * s.nrGroups, (inodeIn s i).mode ≠ 0 → ∃ t, (inodeFree i).run s = some ((), t) ∧
    (i ≠ 0 → InodeMoved s t i .zero) ∧ (i = 0 → t = s)

theorem Tables.inodeCalls (tables : Tables s) : InodeCalls s where
  alloc := by
    intro mode some
    obtain ⟨i, t, run, ⟨rfl, rfl, none⟩ | ⟨nonzero, inside, free, counted, rfl⟩⟩ := run_inodeAlloc tables mode
    · exact ⟨0, t, run, fun ne => absurd rfl ne, fun _ => rfl, fun _ => none⟩
    · exact ⟨i, _, run, fun _ => (taken_moved tables inside nonzero free some counted).2, fun zero => absurd zero nonzero,
        fun zero => absurd zero nonzero⟩
  free := by
    intro i inside taken
    refine ⟨_, run_inodeFree tables inside, fun nonzero => ?_, fun zero => if_pos zero⟩
    rw [if_neg nonzero]
    exact (given_moved tables inside nonzero taken).2

theorem InodeCall.step (tables : Tables s) {call : InodeCall} (valid : call.Valid s) (run : call.run.run s = some ((), t)) :
    Tables t ∧ (inodeTally s).Balanced (inodeTally t) := by
  cases call with
  | alloc mode =>
      obtain ⟨i, u, run', given⟩ := run_inodeAlloc tables mode
      unfold InodeCall.run at run
      rw [run_bind_some run'] at run
      obtain rfl : u = t := (Prod.mk.inj (Option.some.inj run)).2
      rcases given with ⟨-, rfl, -⟩ | ⟨nonzero, inside, free, counted, rfl⟩
      · exact ⟨tables, .refl _⟩
      · have moved := taken_moved tables inside nonzero free valid counted
        exact ⟨moved.1, moved.2.tally.balanced⟩
  | free i =>
      unfold InodeCall.run at run
      rw [run_inodeFree tables valid.1] at run
      obtain rfl := (Prod.mk.inj (Option.some.inj run)).2
      by_cases zero : i = 0
      · rw [if_pos zero]
        exact ⟨tables, .refl _⟩
      · rw [if_neg zero]
        have moved := given_moved tables valid.1 zero valid.2
        exact ⟨moved.1, moved.2.tally.balanced⟩

/-- The inode allocator in every state of every run: what the next call does, and that the counts have kept their distance. -/
theorem inode_allocator_runs (tables : Tables s) (run : InodeRun s t) : (inodeTally s).Balanced (inodeTally t) ∧ InodeCalls t := by
  have kept : Tables t ∧ (inodeTally s).Balanced (inodeTally t) := by
    induction run with
    | nil => exact ⟨tables, .refl _⟩
    | step before call valid run ih =>
        obtain ⟨tables', first⟩ := ih
        obtain ⟨tables'', second⟩ := InodeCall.step tables' valid run
        exact ⟨tables'', first.trans second⟩
  exact ⟨kept.2, kept.1.inodeCalls⟩

theorem inode_allocator_runs_fresh : ∃ s t : FsState Disk, s.sb.magic = magic ∧ (InodeCall.alloc sIfreg).run.run s = some ((), t) ∧
    (inodeTally s).Balanced (inodeTally t) ∧ InodeCalls t := by
  obtain ⟨_, s, V, -, -, rep, -⟩ := fresh_128
  have tables : Tables { s with bitmaps := fun _ => some .zero } :=
    Layout.tables { rep.layout with } fun _ _ => Option.some_ne_none _
  obtain ⟨i, t, run, -⟩ := run_inodeAlloc tables sIfreg
  have call : (InodeCall.alloc sIfreg).run.run { s with bitmaps := fun _ => some .zero } = some ((), t) := by
    unfold InodeCall.run
    rw [run_bind_some run]
    rfl
  have valid : (InodeCall.alloc sIfreg).Valid { s with bitmaps := fun _ => some .zero } := by
    change sIfreg ≠ 0
    decide
  exact ⟨{ s with bitmaps := fun _ => some .zero }, t, rep.layout.magic, call, inode_allocator_runs tables (.step .nil _ valid call)⟩

end SwiftBSD.Proof.Fs
