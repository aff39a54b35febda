import SwiftBSD.Lib.Tally
import SwiftBSD.Proof.Fs.Mount

namespace SwiftBSD.Proof.Fs
open Lib SwiftBSD.Fs

section Bits
variable {σ : Type} {s t u : FsState σ} {g h i j : Nat} {bm : Block} {value : Bool}

/-- Bit `i` of the bitmap of group `g` that is in memory. -/
def isSet (s : FsState σ) (g i : Nat) : Bool := (s.bitmaps g).any (bitTest · i)

def clearBitsOf (s : FsState σ) (g : Nat) : Finset Nat := (Finset.range 32768).filter fun i => isSet s g i = false

def clearCount (s : FsState σ) (g : Nat) : Nat := (clearBitsOf s g).card

def clearTotal (s : FsState σ) : Nat := ∑ g ∈ Finset.range s.nrGroups, clearCount s g

/-- By how much the count of group `g` is too large. -/
def excess (s : FsState σ) (g : Nat) : Int := (s.gd g).freeBlocksCount.toNat - clearCount s g

def excessTotal (s : FsState σ) : Int := s.sb.freeBlocks.toNat - clearTotal s

/-- All bitmaps are in memory, and block 0 is taken. For the number of groups see `mount_nrGroups`. -/
structure Loaded (s : FsState σ) : Prop where
  bitmap : ∀ g < s.nrGroups, s.bitmaps g ≠ none
  zero : isSet s 0 0 = true
  bound : s.nrGroups ≤ 131072

theorem mount_nrGroups {disk : Disk} {heap : Nat → Bool} {s : FsState Disk}
    (mount : swiftfs2Mount.run (FsState.boot disk heap) = some (0, s)) : s.nrGroups ≤ 131072 := by
  obtain ⟨sb, ok, rfl⟩ := (@mount_run _ _ (FsState.boot disk heap) _ disk.block rfl fun _ => rfl).mp mount
  have granted := ok.bitmapHeap
  unfold grants at granted
  simp only [Bool.and_eq_true, decide_eq_true_eq] at granted
  simp only [mountState]
  omega

theorem isSet_some (present : s.bitmaps g = some bm) (i : Nat) : isSet s g i = bitTest bm i := by
  unfold isSet
  rw [present]
  rfl

theorem mem_clearBitsOf : i ∈ clearBitsOf s g ↔ i < 32768 ∧ isSet s g i = false := by
  unfold clearBitsOf
  rw [Finset.mem_filter, Finset.mem_range]

/-- The blocks of the groups, with the counts of free ones. -/
def blockTally (s : FsState σ) : Tally where
  groups := s.nrGroups
  size := 32768
  taken := isSet s
  count := fun g => (s.gd g).freeBlocksCount
  total := s.sb.freeBlocks

/-- Bit `i` of group `g` becomes `value`, and the counts follow. -/
structure BitMoved (s t : FsState σ) (g i : Nat) (value : Bool) : Prop where
  inside : g < s.nrGroups
  small : i < 32768
  groups : t.nrGroups = s.nrGroups
  loaded : ∀ h, s.bitmaps h ≠ none → t.bitmaps h ≠ none
  before : isSet s g i = !value
  after : ∀ h j, isSet t h j = if h = g ∧ j = i then value else isSet s h j
  count : (t.gd g).freeBlocksCount = if value then (s.gd g).freeBlocksCount - 1 else (s.gd g).freeBlocksCount + 1
  other : ∀ h ≠ g, (t.gd h).freeBlocksCount = (s.gd h).freeBlocksCount
  total : t.sb.freeBlocks = if value then s.sb.freeBlocks - 1 else s.sb.freeBlocks + 1
  -- a group whose count is 0 is passed over
  counted : value = true → (s.gd g).freeBlocksCount ≠ 0

section Moved
variable (moved : BitMoved s t g i value)
include moved

theorem BitMoved.tally : (blockTally s).Moved (blockTally t) g i value where
  groups := moved.groups
  size := rfl
  inside := moved.inside
  small := moved.small
  before := moved.before
  after := fun h _ j _ => moved.after h j
  count := moved.count
  other := fun h _ => moved.other h
  total := moved.total
  counted := moved.counted

theorem BitMoved.keeps_loaded (zero : value = false → g ≠ 0 ∨ i ≠ 0) (loaded : Loaded s) : Loaded t where
  bitmap := fun h inside => moved.loaded h (loaded.bitmap h (moved.groups ▸ inside))
  zero := by
    rw [moved.after]
    split
    · next same =>
        cases value with
        | true => rfl
        | false => exact absurd (zero rfl) (by rw [← same.1, ← same.2]; simp)
    · exact loaded.zero
  bound := moved.groups ▸ loaded.bound

end Moved

/-- The counts keep their distance from the bitmaps, as the numbers of 32 and 64 bits that they are, and as integers as long as they
have room. -/
structure Balanced (s t : FsState σ) : Prop where
  groups : t.nrGroups = s.nrGroups
  group : ∀ g < s.nrGroups, (4294967296 : Int) ∣ excess t g - excess s g
  groupExact : ∀ g < s.nrGroups, excess s g + 32768 < 4294967296 → excess t g = excess s g
  total : (18446744073709551616 : Int) ∣ excessTotal t - excessTotal s
  totalExact : 0 ≤ excessTotal s → excessTotal s + s.nrGroups * 32768 < 18446744073709551616 → excessTotal t = excessTotal s

theorem balanced_iff : Balanced s t ↔ (blockTally s).Balanced (blockTally t) := by
  constructor
  · intro balanced
    exact ⟨balanced.groups, rfl, balanced.group, balanced.groupExact, balanced.total, balanced.totalExact⟩
  · intro balanced
    exact ⟨balanced.groups, balanced.group, balanced.groupExact, balanced.total, balanced.totalExact⟩

theorem Balanced.refl (s : FsState σ) : Balanced s s := balanced_iff.mpr (.refl _)

theorem Balanced.trans (first : Balanced s t) (second : Balanced t u) : Balanced s u :=
  balanced_iff.mpr ((balanced_iff.mp first).trans (balanced_iff.mp second))

theorem BitMoved.balanced (moved : BitMoved s t g i value) : Balanced s t := balanced_iff.mpr moved.tally.balanced

/-- Group `g` has nothing to give, by its count or by its bitmap. -/
def Spent (s : FsState σ) (g : Nat) : Prop := (s.gd g).freeBlocksCount = 0 ∨ ∀ i < 32768, isSet s g i = true

theorem Spent.full (spent : Spent s g) (enough : 0 ≤ excess s g) (small : i < 32768) : isSet s g i = true := by
  rcases spent with zero | full
  · unfold excess at enough
    rw [zero, UInt32.toNat_zero] at enough
    have none : (clearBitsOf s g).card = 0 := by
      unfold clearCount at enough
      omega
    cases bit : isSet s g i with
    | true => rfl
    | false =>
        have member : i ∈ clearBitsOf s g := mem_clearBitsOf.mpr ⟨small, bit⟩
        rw [Finset.card_eq_zero.mp none] at member
        cases member
  · exact full i small

theorem bitMoved_take (dev : σ) (inside : g < s.nrGroups) (present : s.bitmaps g = some bm) (small : i < 32768)
    (clear : bitTest bm i = false) (counted : (s.gd g).freeBlocksCount ≠ 0) : BitMoved s { takeBlock g i bm s with dev } g i true where
  inside := inside
  small := small
  groups := rfl
  loaded := fun h was => by
    simp only [takeBlock, Function.update_apply]
    split
    · exact Option.some_ne_none _
    · exact was
  before := by rw [isSet_some present, clear]; rfl
  after := fun h j => by
    simp only [takeBlock, isSet, Function.update_apply]
    by_cases same : h = g
    · subst same
      rw [if_pos rfl, present, Option.any_some, Option.any_some, bitTest_bitSet bm small]
      by_cases bit : j = i
      · simp [bit]
      · simp [bit]
    · rw [if_neg same, if_neg fun both => same both.1]
  count := by
    dsimp only [takeBlock]
    rw [Function.update_self, if_pos rfl]
  other := fun h ne => by
    dsimp only [takeBlock]
    rw [Function.update_of_ne ne]
  total := rfl
  counted := fun _ => counted

theorem bitMoved_give (dev : σ) (inside : g < s.nrGroups) (present : s.bitmaps g = some bm) (small : i < 32768)
    (set : bitTest bm i = true) : BitMoved s { giveBlock g i bm s with dev } g i false where
  inside := inside
  small := small
  groups := rfl
  loaded := fun h was => by
    simp only [giveBlock, Function.update_apply]
    split
    · exact Option.some_ne_none _
    · exact was
  before := by rw [isSet_some present, set]; rfl
  after := fun h j => by
    simp only [giveBlock, isSet, Function.update_apply]
    by_cases same : h = g
    · subst same
      rw [if_pos rfl, present, Option.any_some, Option.any_some, bitTest_bitClear bm small]
      by_cases bit : j = i
      · simp [bit]
      · simp [bit]
    · rw [if_neg same, if_neg fun both => same both.1]
  count := by
    dsimp only [giveBlock]
    rw [Function.update_self, if_neg Bool.false_ne_true]
  other := fun h ne => by
    dsimp only [giveBlock]
    rw [Function.update_of_ne ne]
  total := rfl
  counted := fun taken => by cases taken

end Bits

section Calls
variable {σ : Type} [BlockStore σ] {s t u : FsState σ} {g : Nat} {bm : Block}

theorem run_bitmapForGroup_present (inside : g < s.nrGroups) (present : s.bitmaps g = some bm) :
    (bitmapForGroup g).run s = some (some bm, s) := by
  have inside : ¬ s.nrGroups ≤ g := by omega
  simp [bitmapForGroup, inside, present]

theorem run_blockAllocIn_present (inside : g < s.nrGroups) (present : s.bitmaps g = some bm) :
    ∃ r u, (blockAllocIn g).run s = some (r, u) ∧ (r = none ∧ u = s ∧ Spent s g ∨
      ∃ i, r = some (.ofNat (g * 32768 + i)) ∧ BitMoved s u g i true) := by
  by_cases empty : (s.gd g).freeBlocksCount = 0
  · refine ⟨none, s, ?_, .inl ⟨rfl, rfl, .inl empty⟩⟩
    simp [blockAllocIn, empty]
  have run := run_bitmapForGroup_present inside present
  cases clear : firstFrom (fun b => !bitTest bm b) 0 32768 with
  | none =>
      refine ⟨none, s, ?_, .inl ⟨rfl, rfl, .inr fun i small => ?_⟩⟩
      · simp [blockAllocIn, empty, run, clear]
      · have := firstFrom_none.mp clear i (Nat.zero_le i) (by omega)
        rw [isSet_some present]
        simpa using this
  | some i =>
      obtain ⟨-, small, isClear, -⟩ := firstFrom_some clear
      have isClear : bitTest bm i = false := by simpa using isClear
      have moved := bitMoved_take (BlockStore.cacheMarkDirty (s.gd g).blockBitmapBlock.toNat s.dev) inside present (by omega) isClear empty
      refine ⟨_, _, ?_, .inr ⟨i, rfl, moved⟩⟩
      simp [blockAllocIn, empty, run, clear, cacheMarkDirty, takeBlock]

theorem run_blockAlloc (loaded : Loaded s) :
    ∃ b u, blockAlloc.run s = some (b, u) ∧ (b = 0 ∧ u = s ∧ (∀ g < s.nrGroups, Spent s g) ∨
      b ≠ 0 ∧ BitMoved s u (b.toNat / 32768) (b.toNat % 32768) true) := by
  have spec : Runs Eq (searchM (fun gi => blockAllocIn ((s.currGroup + gi) % s.nrGroups)) 0 s.nrGroups) s
      fun r u => r = none ∧ u = s ∧ (∀ g < s.nrGroups, Spent s g) ∨
        ∃ g i, r = some (.ofNat (g * 32768 + i)) ∧ BitMoved s u g i true := by
    have visited (j : Nat) (hj : j < s.nrGroups) : (s.currGroup + j) % s.nrGroups < s.nrGroups := Nat.mod_lt _ (by omega)
    have everywhere (g : Nat) (inside : g < s.nrGroups) := cyclic_visit s.currGroup inside
    refine Runs.search (fun j t => t = s ∧ ∀ i < j, Spent s ((s.currGroup + i) % s.nrGroups)) ⟨rfl, fun i hi => by omega⟩ ?_ ?_
    · rintro j _ - hj ⟨rfl, spent⟩ _ rfl
      have inside := visited j (by omega)
      obtain ⟨bm, present⟩ := Option.ne_none_iff_exists'.mp (loaded.bitmap _ inside)
      obtain ⟨r, u, run, ⟨rfl, rfl, here⟩ | ⟨i, rfl, moved⟩⟩ := run_blockAllocIn_present inside present
      · refine ⟨none, u, u, run, rfl, rfl, fun i hi => ?_⟩
        rcases Nat.lt_succ_iff_lt_or_eq.mp hi with earlier | rfl
        · exact spent i earlier
        · exact here
      · exact ⟨_, u, u, run, rfl, .inr ⟨_, i, rfl, moved⟩⟩
    · rintro _ ⟨rfl, spent⟩
      refine .inl ⟨rfl, rfl, fun g inside => ?_⟩
      obtain ⟨i, hi, rfl⟩ := everywhere g inside
      exact spent i (by omega)
  obtain ⟨r, u, _, run, rfl, spec⟩ := spec s rfl
  have program : blockAlloc.run s = some (r.getD 0, u) := by
    simp [blockAlloc, run]
  rcases spec with ⟨rfl, rfl, spent⟩ | ⟨g, i, rfl, moved⟩
  · exact ⟨0, u, program, .inl ⟨rfl, rfl, spent⟩⟩
  have inside := moved.inside
  have small := moved.small
  have bound := loaded.bound
  have number : (UInt32.ofNat (g * 32768 + i)).toNat = g * 32768 + i := by
    rw [UInt32.toNat_ofNat']
    omega
  refine ⟨_, u, program, .inr ⟨fun zero => ?_, ?_⟩⟩
  · rw [Option.getD_some] at zero
    rw [zero, UInt32.toNat_zero] at number
    have before := moved.before
    rw [show g = 0 by omega, show i = 0 by omega, loaded.zero] at before
    cases before
  · rw [Option.getD_some, number, show (g * 32768 + i) / 32768 = g by omega, show (g * 32768 + i) % 32768 = i by omega]
    exact moved

def Freeable (s : FsState σ) (block : UInt32) : Prop :=
  block ≠ 0 ∧ block.toNat / 32768 < s.nrGroups ∧ isSet s (block.toNat / 32768) (block.toNat % 32768) = true

theorem run_blockFree (loaded : Loaded s) (block : UInt32) :
    ∃ u, (blockFree block).run s = some ((), u) ∧ (Freeable s block → BitMoved s u (block.toNat / 32768) (block.toNat % 32768) false) ∧
      (¬Freeable s block → u = s) := by
  by_cases zero : block = 0
  · exact ⟨s, by simp [blockFree, zero], fun free => absurd zero free.1, fun _ => rfl⟩
  by_cases outside : s.nrGroups ≤ block.toNat / 32768
  · exact ⟨s, by simp [blockFree, zero, bitmapForGroup, outside], fun free => absurd free.2.1 (by omega), fun _ => rfl⟩
  have inside : block.toNat / 32768 < s.nrGroups := by omega
  obtain ⟨bm, present⟩ := Option.ne_none_iff_exists'.mp (loaded.bitmap _ inside)
  have run := run_bitmapForGroup_present inside present
  by_cases taken : bitTest bm (block.toNat % 32768) = true
  · have moved := bitMoved_give (BlockStore.cacheMarkDirty (s.gd (block.toNat / 32768)).blockBitmapBlock.toNat s.dev) inside present
      (Nat.mod_lt block.toNat (by decide)) taken
    refine ⟨_, ?_, fun _ => moved, fun busy => absurd ⟨zero, inside, (isSet_some present _).trans taken⟩ busy⟩
    simp [blockFree, zero, run, taken, cacheMarkDirty, giveBlock]
  · refine ⟨s, by simp [blockFree, zero, run, taken], fun free => ?_, fun _ => rfl⟩
    exact absurd ((isSet_some present _).symm.trans free.2.2) taken

inductive AllocCall
  | alloc
  | free (block : UInt32)

def AllocCall.run : AllocCall → FsM σ Unit
  | .alloc => do let _ ← blockAlloc
  | .free block => blockFree block

def allocCalls : List AllocCall → FsM σ Unit
  | [] => return
  | call :: calls => do
      call.run
      allocCalls calls

structure Allocates (s : FsState σ) : Prop where
  alloc : ∃ b u, blockAlloc.run s = some (b, u) ∧ (b ≠ 0 → BitMoved s u (b.toNat / 32768) (b.toNat % 32768) true) ∧ (b = 0 → u = s) ∧
    ((∀ g < s.nrGroups, clearCount s g ≤ (s.gd g).freeBlocksCount.toNat) → b = 0 → ∀ g < s.nrGroups, ∀ i < 32768, isSet s g i = true)
  free : ∀ block, ∃ u, (blockFree block).run s = some ((), u) ∧
    (Freeable s block → BitMoved s u (block.toNat / 32768) (block.toNat % 32768) false) ∧ (¬Freeable s block → u = s)

theorem Loaded.allocates (loaded : Loaded s) : Allocates s where
  alloc := by
    obtain ⟨b, u, run, ⟨rfl, rfl, spent⟩ | ⟨nonzero, moved⟩⟩ := run_blockAlloc loaded
    · refine ⟨0, u, run, fun ne => absurd rfl ne, fun _ => rfl, fun enough _ g inside i small => ?_⟩
      refine (spent g inside).full ?_ small
      have := enough g inside
      unfold excess
      omega
    · exact ⟨b, u, run, fun _ => moved, fun zero => absurd zero nonzero, fun _ zero => absurd zero nonzero⟩
  free := run_blockFree loaded

theorem AllocCall.step (loaded : Loaded s) (call : AllocCall) : ∃ t, call.run.run s = some ((), t) ∧ Loaded t ∧ Balanced s t := by
  cases call with
  | alloc =>
      obtain ⟨b, u, run, none | ⟨-, moved⟩⟩ := run_blockAlloc loaded
      · obtain ⟨-, rfl, -⟩ := none
        exact ⟨u, by simp [AllocCall.run, run], loaded, .refl u⟩
      · exact ⟨u, by simp [AllocCall.run, run], moved.keeps_loaded (fun given => by cases given) loaded, moved.balanced⟩
  | free block =>
      obtain ⟨u, run, given, kept⟩ := run_blockFree loaded block
      by_cases free : Freeable s block
      · refine ⟨u, run, (given free).keeps_loaded (fun _ => ?_) loaded, (given free).balanced⟩
        by_contra both
        rw [not_or, not_not, not_not] at both
        exact free.1 (UInt32.toNat_inj.mp (by rw [UInt32.toNat_zero]; omega))
      · obtain rfl := kept free
        exact ⟨u, run, loaded, .refl u⟩

/-- The allocator in every state of every run: what the next call does, and that the counts have kept their distance. -/
theorem allocator_runs (loaded : Loaded s) (calls : List AllocCall) :
    ∃ t, (allocCalls calls).run s = some ((), t) ∧ Balanced s t ∧ Loaded t ∧ Allocates t := by
  induction calls generalizing s with
  | nil => exact ⟨s, rfl, .refl s, loaded, loaded.allocates⟩
  | cons call calls ih =>
      obtain ⟨t, run, loaded', first⟩ := call.step loaded
      obtain ⟨u, rest, balanced, last⟩ := ih loaded'
      refine ⟨u, ?_, first.trans balanced, last⟩
      unfold allocCalls
      rw [run_bind_some run, rest]

/-- One group whose first bit is set; its count and the total are right. -/
def oneGroup : FsState Disk :=
  { FsState.boot ⟨fun _ => .zero⟩ fun _ => true with
    nrGroups := 1
    sb := { Super.decode [] with freeBlocks := 32767 }
    gd := fun _ => { Gd.decode [] with freeBlocksCount := 32767 }
    bitmaps := fun _ => some (bitSet .zero 0) }

theorem oneGroup_bit (i : Nat) : isSet oneGroup 0 i = decide (i = 0) := by
  rw [isSet_some rfl, bitTest_bitSet _ (by decide)]
  have clear : bitTest .zero i = false := by simp [bitTest]
  rw [clear, Bool.false_or]

theorem oneGroup_counted (g : Nat) (inside : g < oneGroup.nrGroups) : clearCount oneGroup g ≤ (oneGroup.gd g).freeBlocksCount.toNat := by
  obtain rfl : g = 0 := Nat.lt_one_iff.mp inside
  have missing : clearBitsOf oneGroup 0 ⊆ (Finset.range 32768).erase 0 := by
    intro i clear
    obtain ⟨small, clear⟩ := Finset.mem_filter.mp clear
    refine Finset.mem_erase.mpr ⟨fun zero => ?_, small⟩
    rw [oneGroup_bit i, decide_eq_false_iff_not] at clear
    exact clear zero
  have := Finset.card_le_card missing
  rwa [Finset.card_erase_of_mem (Finset.mem_range.mpr (by decide)), Finset.card_range] at this

theorem allocator_runs_oneGroup : ∃ b u, b ≠ 0 ∧ blockAlloc.run oneGroup = some (b, u) ∧ Freeable u b ∧
    ∃ t, (allocCalls [.alloc, .free b]).run oneGroup = some ((), t) ∧ Balanced oneGroup t ∧ Loaded t ∧ Allocates t := by
  have loaded : Loaded oneGroup := ⟨fun _ _ => Option.some_ne_none _, oneGroup_bit 0, by decide⟩
  obtain ⟨t, run, -, -, allocates⟩ := allocator_runs loaded []
  obtain rfl : oneGroup = t := (Prod.mk.inj (Option.some.inj run)).2
  obtain ⟨b, u, run, given, -, full⟩ := allocates.alloc
  have nonzero : b ≠ 0 := by
    intro zero
    have := full oneGroup_counted zero 0 (by decide) 1 (by decide)
    rw [oneGroup_bit 1] at this
    cases this
  have moved := given nonzero
  refine ⟨b, u, nonzero, run, ⟨nonzero, by rw [moved.groups]; exact moved.inside, ?_⟩, allocator_runs loaded _⟩
  rw [moved.after, if_pos ⟨rfl, rfl⟩]

end Calls

end SwiftBSD.Proof.Fs
