import Mathlib.Algebra.BigOperators.Group.Finset.Basic
import Mathlib.Algebra.Order.BigOperators.Group.Finset
import SwiftBSD.Proof.Fs.Primitives

namespace SwiftBSD.Proof.Fs
open Lib SwiftBSD.Fs

variable {s t : FsState Disk} {V : Vol}

namespace Vol

def refresh (V : Vol) : Vol := { V with exhausted := false }

end Vol

structure Loads (s t : FsState Disk) : Prop where
  frame : t = { s with heap := t.heap, bitmaps := t.bitmaps }
  bitmap : ∀ g, bitmapOf t g = bitmapOf s g
  asked : ∃ n, ∀ k, t.heap k = s.heap (k+n)

theorem Loads.refl (s : FsState Disk) : Loads s s := ⟨rfl, fun _ => rfl, 0, fun _ => rfl⟩

theorem Loads.trans {u : FsState Disk} (first : Loads s t) (second : Loads t u) : Loads s u where
  frame := by
    rw [second.frame, first.frame]
  bitmap := fun g => (second.bitmap g).trans (first.bitmap g)
  asked := by
    obtain ⟨n, first⟩ := first.asked
    obtain ⟨m, second⟩ := second.asked
    exact ⟨m + n, fun k => by rw [second, first, Nat.add_assoc]⟩

theorem Loads.heap (h : Loads s t) (granted : ∀ k, s.heap k = true) (k : Nat) : t.heap k = true := by
  obtain ⟨n, asked⟩ := h.asked
  rw [asked, granted]

theorem Loads.nrGroups (h : Loads s t) : t.nrGroups = s.nrGroups := by rw [h.frame]

theorem Loads.gd (h : Loads s t) : t.gd = s.gd := by rw [h.frame]

theorem Loads.dev (h : Loads s t) : t.dev = s.dev := by rw [h.frame]

theorem Loads.layout (h : Loads s t) (layout : Layout s) : Layout t := by
  rw [h.frame]
  exact { layout with }

theorem Loads.rep (h : Loads s t) (rep : Rep s V) : Rep t V.refresh where
  layout := h.layout rep.layout
  groups := h.nrGroups.trans rep.groups
  inode := by
    intro i hi
    rw [← show inodeAt s i = V.refresh.inode i from rep.inode i hi, inodeAt, inodeAt, h.dev, h.nrGroups]
  used := by
    intro b hb
    rw [usedAt, h.bitmap]
    exact rep.used b hb
  data := by
    intro b hb
    rw [h.dev]
    exact rep.data b hb
  fds := by rw [h.frame]; exact rep.fds
  freeBlocks := by rw [h.frame]; exact rep.freeBlocks
  freeInodes := by rw [h.frame]; exact rep.freeInodes
  groupFreeBlocks := by rw [h.gd]; exact rep.groupFreeBlocks
  groupFreeInodes := by rw [h.gd]; exact rep.groupFreeInodes
  exhausted := by simp [Vol.refresh]
  roomy := h.heap ∘ rep.roomy
  answers := by
    intro heap same
    obtain ⟨n, before⟩ := rep.answers heap same
    obtain ⟨m, asked⟩ := h.asked
    exact ⟨m + n, fun k => by rw [asked, before, Nat.add_assoc]⟩

theorem run_bitmapForGroup (layout : Layout s) {g : Nat} (hg : g < s.nrGroups) :
    ∃ t, (bitmapForGroup g).run s = some (t.bitmaps g, t) ∧ Loads s t ∧
      (∀ h ≠ g, t.bitmaps h = s.bitmaps h) ∧ (t.bitmaps g = none → HeapRefused t s.heap) := by
  have inside : ¬ s.nrGroups ≤ g := by omega
  cases present : s.bitmaps g with
  | some bm =>
      refine ⟨s, ?_, .refl s, fun _ _ => rfl, by simp [present]⟩
      simp [bitmapForGroup, inside, present]
  | none =>
      cases answer : s.heap 0 with
      | false =>
          refine ⟨{ s with heap := fun k => s.heap (k+1) }, ?_, ⟨rfl, fun _ => rfl, 1, fun _ => rfl⟩,
            fun _ _ => rfl, fun _ => ⟨1, fun _ => rfl, 0, by decide, answer⟩⟩
          simp [bitmapForGroup, kmalloc, inside, present, answer]
      | true =>
          refine ⟨{ s with
            heap := fun k => s.heap (k+1)
            bitmaps := Function.update s.bitmaps g (some (s.dev.block (bitmapBlock s.nrGroups g))) },
            ?_, ⟨rfl, ?_, 1, fun _ => rfl⟩, fun h hh => Function.update_of_ne hh _ _, by simp⟩
          · simp [bitmapForGroup, kmalloc, inside, present, answer, readBlock, BlockStore.readBlock,
              layout.bitmap g hg]
          · intro h
            by_cases same : h = g
            · subst same
              simp [bitmapOf, present]
            · simp [bitmapOf, Function.update_of_ne same]

theorem cyclic_visit {n g : Nat} (start : Nat) (hg : g < n) : ∃ i < n, (start + i) % n = g := by
  have positive : 0 < n := by omega
  have small := Nat.mod_lt start positive
  refine ⟨(g + (n - start % n)) % n, Nat.mod_lt _ positive, ?_⟩
  rw [Nat.add_mod, Nat.mod_mod, ← Nat.add_mod, ← Nat.mod_add_mod, show start % n + (g + (n - start % n)) = g + n by omega,
    Nat.add_mod_right, Nat.mod_eq_of_lt hg]

theorem GroupFull.loads {h : Nat} (loads : Loads s t) : GroupFull t h ↔ GroupFull s h := by
  unfold GroupFull
  rw [loads.gd, loads.bitmap]

theorem HeapRefused.granted {heap : Nat → Bool} (refused : HeapRefused s heap) : ¬ ∀ k, heap k = true := by
  obtain ⟨-, -, k, -, no⟩ := refused
  intro granted
  rw [granted] at no
  cases no

theorem HeapRefused.loads {heap : Nat → Bool} (loads : Loads s t) (refused : HeapRefused s heap) : HeapRefused t heap := by
  obtain ⟨n, same, k, hk, no⟩ := refused
  obtain ⟨m, asked⟩ := loads.asked
  exact ⟨m + n, fun j => by rw [asked, same, Nat.add_assoc], k, by omega, no⟩

theorem HeapRefused.since {heap before : Nat → Bool} {n : Nat} (refused : HeapRefused s heap)
    (same : ∀ k, heap k = before (k+n)) : HeapRefused s before := by
  obtain ⟨m, after, k, hk, no⟩ := refused
  exact ⟨m + n, fun j => by rw [after, same, Nat.add_assoc], k + n, by omega, by rw [← same, no]⟩

theorem GroupOut.loads {heap : Nat → Bool} {h : Nat} (loads : Loads s t) (same : t.bitmaps h = s.bitmaps h)
    (out : GroupOut s heap h) : GroupOut t heap h := by
  refine out.imp (GroupFull.loads loads).mpr fun ⟨absent, refused⟩ => ⟨?_, refused.loads loads⟩
  rw [same, absent]

theorem run_blockAllocIn (layout : Layout s) {g : Nat} (hg : g < s.nrGroups) :
    ∃ r u, (blockAllocIn g).run s = some (r, u) ∧
      ((r = none ∧ Loads s u ∧ (∀ h ≠ g, u.bitmaps h = s.bitmaps h) ∧ GroupOut u s.heap g) ∨
      ∃ t bm b, r = some (UInt32.ofNat (g * 32768 + b)) ∧ Loads s t ∧ t.bitmaps g = some bm ∧ b < 32768 ∧
        bitTest bm b = false ∧ (s.gd g).freeBlocksCount ≠ 0 ∧ u = takeBlock g b bm t) := by
  by_cases empty : (s.gd g).freeBlocksCount = 0
  · refine ⟨none, s, ?_, .inl ⟨rfl, .refl s, fun _ _ => rfl, .inl (.inl empty)⟩⟩
    simp [blockAllocIn, empty]
  obtain ⟨t, run, loads, others, refused⟩ := run_bitmapForGroup layout hg
  cases present : t.bitmaps g with
  | none =>
      refine ⟨none, t, ?_, .inl ⟨rfl, loads, others, .inr ⟨present, refused present⟩⟩⟩
      simp [blockAllocIn, empty, run, present]
  | some bm =>
      cases clear : firstFrom (fun b => !bitTest bm b) 0 32768 with
      | none =>
          have full : ∀ b < 32768, bitTest (bitmapOf t g) b = true := by
            intro b hb
            have := firstFrom_none.mp clear b (by omega) (by omega)
            simpa [bitmapOf, present] using this
          refine ⟨none, t, ?_, .inl ⟨rfl, loads, others, .inl (.inr full)⟩⟩
          simp [blockAllocIn, empty, run, present, clear]
      | some b =>
          obtain ⟨-, hb, isClear, -⟩ := firstFrom_some clear
          refine ⟨_, takeBlock g b bm t, ?_,
            .inr ⟨t, bm, b, rfl, loads, present, by omega, by simpa using isClear, empty, rfl⟩⟩
          simp [blockAllocIn, empty, run, present, clear, cacheMarkDirty, BlockStore.cacheMarkDirty]

theorem Layout.updateGd (layout : Layout s) {g : Nat} {x : Gd} {sb : Super} {bitmaps : Nat → Option Block}
    {currGroup : Nat} (bitmap : x.blockBitmapBlock = (s.gd g).blockBitmapBlock)
    (table : x.inodeTableBlock = (s.gd g).inodeTableBlock)
    (super : sb = { s.sb with freeBlocks := sb.freeBlocks, freeInodes := sb.freeInodes }) :
    Layout { s with sb, bitmaps, currGroup, gd := Function.update s.gd g x } := by
  rw [super]
  refine { layout with bitmap := ?_, table := ?_ }
  · intro h hh
    simp only [Function.update_apply]
    split
    · next same => rw [bitmap, ← same, layout.bitmap h hh]
    · exact layout.bitmap h hh
  · intro h hh
    simp only [Function.update_apply]
    split
    · next same => rw [table, ← same, layout.table h hh]
    · exact layout.table h hh

theorem Rep.setBit (rep : Rep s V) {g b : Nat} {bm bm' : Block} {value : Bool} {count : UInt32} {total : UInt64}
    {currGroup : Nat} (hb : b < 32768) (present : s.bitmaps g = some bm)
    (bit : ∀ c, bitTest bm' c = if c = b then value else bitTest bm c) :
    Rep { s with
        bitmaps := Function.update s.bitmaps g (some bm')
        gd := Function.update s.gd g { s.gd g with freeBlocksCount := count }
        sb := { s.sb with freeBlocks := total }
        currGroup }
      { V with
        used := Function.update V.used (g * 32768 + b) value
        freeBlocks := total
        groupFreeBlocks := Function.update V.groupFreeBlocks g count
        exhausted := false } where
  layout := rep.layout.updateGd rfl rfl rfl
  groups := rep.groups
  inode := rep.inode
  used := by
    intro c hc
    have old := rep.used c hc
    simp only [usedAt, bitmapOf, Function.update_apply] at old ⊢
    by_cases same : c / 32768 = g
    · rw [same, present] at old
      simp only [same, if_true, Option.getD_some, bit] at old ⊢
      have offset : c = g * 32768 + b ↔ c % 32768 = b := by omega
      simp only [offset, old]
    · have other : c ≠ g * 32768 + b := fun h => same (by omega)
      simp only [same, other, if_false]
      exact old
  data := rep.data
  fds := rep.fds
  freeBlocks := rfl
  freeInodes := rep.freeInodes
  groupFreeBlocks := by
    intro h hh
    simp only [Function.update_apply]
    split
    · rfl
    · exact rep.groupFreeBlocks h hh
  groupFreeInodes := by
    intro h hh
    simp only [Function.update_apply]
    split
    · next same => rw [← same]; exact rep.groupFreeInodes h hh
    · exact rep.groupFreeInodes h hh
  exhausted := by simp
  roomy := rep.roomy
  answers := rep.answers

theorem Rep.takeBlock (rep : Rep s V) {g b : Nat} {bm : Block} (hg : g < s.nrGroups) (hb : b < 32768)
    (present : s.bitmaps g = some bm) : Rep (takeBlock g b bm s) (V.take (g * 32768 + b)) := by
  have group : (g * 32768 + b) / 32768 = g := by omega
  have bit (c : Nat) : bitTest (bitSet bm b) c = if c = b then true else bitTest bm c := by
    rw [bitTest_bitSet bm hb]
    split <;> simp_all
  rw [SwiftBSD.Fs.takeBlock, Vol.take, group, rep.groupFreeBlocks g (rep.groups ▸ hg), rep.freeBlocks]
  exact rep.setBit hb present bit

theorem Rep.giveBlock (rep : Rep s V) {g b : Nat} {bm : Block} (hg : g < s.nrGroups) (hb : b < 32768)
    (present : s.bitmaps g = some bm) : Rep (giveBlock g b bm s) (V.give (g * 32768 + b)) := by
  have group : (g * 32768 + b) / 32768 = g := by omega
  have bit (c : Nat) : bitTest (bitClear bm b) c = if c = b then false else bitTest bm c := by
    rw [bitTest_bitClear bm hb]
    split <;> simp_all
  rw [SwiftBSD.Fs.giveBlock, Vol.give, group, rep.groupFreeBlocks g (rep.groups ▸ hg), rep.freeBlocks]
  exact rep.setBit hb present bit

theorem Rep.exhaust (rep : Rep s V) (out : ∀ heap, V.answers = some heap → OutOfBlocks s heap) : Rep s V.exhaust :=
  ⟨rep.layout, rep.groups, rep.inode, rep.used, rep.data, rep.fds, rep.freeBlocks, rep.freeInodes,
    rep.groupFreeBlocks, rep.groupFreeInodes, fun _ => out, rep.roomy, rep.answers⟩

def Vol.NoBlock (V : Vol) : Prop := ∀ b < V.blocks, V.groupFreeBlocks (b / 32768) = 0 ∨ V.used b = true

inductive Alloc (V : Vol) : UInt32 → Vol → Prop
  | none (full : V.roomy = true → V.NoBlock) : Alloc V 0 V.exhaust
  | some {b : UInt32} (nonzero : b ≠ 0) (bound : b.toNat < V.blocks) (free : V.used b.toNat = false)
      (count : V.groupFreeBlocks (b.toNat / 32768) ≠ 0) : Alloc V b (V.take b.toNat)

theorem runs_blockAlloc (zero : V.used 0 = true) : Runs Rep blockAlloc V (Alloc V) := by
  intro s rep
  have positive := rep.layout.positive
  have spec : Runs Eq (searchM (fun gi => blockAllocIn ((s.currGroup + gi) % s.nrGroups)) 0 s.nrGroups) s
      fun r u => (r = .none ∧ Loads s u ∧ OutOfBlocks u s.heap) ∨
        ∃ t g bm b, r = .some (UInt32.ofNat (g * 32768 + b)) ∧ Loads s t ∧ g < s.nrGroups ∧
          t.bitmaps g = .some bm ∧ b < 32768 ∧ bitTest bm b = false ∧ (s.gd g).freeBlocksCount ≠ 0 ∧
          u = takeBlock g b bm t := by
    refine Runs.search (fun j t => Loads s t ∧ ∀ i < j, GroupOut t s.heap ((s.currGroup + i) % s.nrGroups))
      ⟨.refl s, fun i hi => by omega⟩ ?_ ?_
    · rintro j t - hj ⟨loads, out⟩ u rfl
      have hg : (s.currGroup + j) % s.nrGroups < u.nrGroups := by
        rw [loads.nrGroups]
        exact Nat.mod_lt _ positive
      obtain ⟨r, u', run, next | ⟨t, bm, b, rfl, loads', present, hb, clear, count, rfl⟩⟩ :=
        run_blockAllocIn (loads.layout rep.layout) hg
      · obtain ⟨rfl, loads', others, here⟩ := next
        obtain ⟨m, asked⟩ := loads.asked
        have here' : GroupOut u' s.heap ((s.currGroup + j) % s.nrGroups) :=
          here.imp_right fun ⟨absent, refused⟩ => ⟨absent, refused.since asked⟩
        refine ⟨.none, u', u', run, rfl, loads.trans loads', fun i hi => ?_⟩
        rcases Nat.lt_succ_iff_lt_or_eq.mp hi with earlier | rfl
        · by_cases same : (s.currGroup + i) % s.nrGroups = (s.currGroup + j) % s.nrGroups
          · rw [same]
            exact here'
          · exact (out i earlier).loads loads' (others _ same)
        · exact here'
      · refine ⟨_, _, _, run, rfl, .inr ⟨t, _, bm, b, rfl, loads.trans loads', ?_, present, hb, clear, ?_, rfl⟩⟩
        · rwa [loads.nrGroups] at hg
        · rwa [loads.gd] at count
    · rintro t ⟨loads, out⟩
      refine .inl ⟨rfl, loads, fun g hg => ?_⟩
      rw [loads.nrGroups] at hg
      obtain ⟨i, hi, rfl⟩ := cyclic_visit s.currGroup hg
      exact out i (by simpa using hi)
  obtain ⟨r, u, _, run, rfl, spec⟩ := spec s rfl
  have program : blockAlloc.run s = .some (r.getD 0, u) := by
    simp [blockAlloc, run]
  rcases spec with ⟨rfl, loads, out⟩ | ⟨t, g, bm, b, rfl, loads, hg, present, hb, clear, count, rfl⟩
  · have since (heap : Nat → Bool) (same : V.answers = .some heap) : OutOfBlocks u heap := by
      obtain ⟨n, before⟩ := rep.answers heap same
      exact fun g hg => (out g hg).imp_right fun ⟨absent, refused⟩ => ⟨absent, refused.since before⟩
    refine ⟨0, u, V.exhaust, program, (loads.rep rep).exhaust since, .none fun roomy b hb => ?_⟩
    have hg : b / 32768 < V.groups := by simp only [Vol.blocks] at hb; omega
    have full : GroupFull s (b / 32768) := by
      refine (GroupFull.loads loads).mp ((out _ (by rw [loads.nrGroups, rep.groups]; exact hg)).resolve_right ?_)
      exact fun refused => refused.2.granted (rep.roomy roomy)
    rw [← rep.groupFreeBlocks _ hg, ← rep.used b hb, usedAt]
    exact full.imp_right fun all => all _ (by omega)
  · have bound := rep.layout.bound
    have value : (UInt32.ofNat (g * 32768 + b)).toNat = g * 32768 + b := by
      rw [UInt32.toNat_ofNat']
      omega
    have inside : g * 32768 + b < V.blocks := by
      rw [Vol.blocks, ← rep.groups]
      omega
    have free : V.used (g * 32768 + b) = false := by
      rw [← rep.used _ inside, usedAt, ← loads.bitmap, show (g * 32768 + b) / 32768 = g by omega,
        show (g * 32768 + b) % 32768 = b by omega, bitmapOf, present]
      exact clear
    refine ⟨_, _, V.take (g * 32768 + b), program, ?_, ?_⟩
    · have := (loads.rep rep).takeBlock (by rw [loads.nrGroups]; exact hg) hb present
      exact this
    · have nonzero : UInt32.ofNat (g * 32768 + b) ≠ 0 := by
        intro h
        rw [h] at value
        rw [show g * 32768 + b = 0 from value.symm, zero] at free
        cases free
      have count' : V.groupFreeBlocks ((g * 32768 + b) / 32768) ≠ 0 := by
        rw [show (g * 32768 + b) / 32768 = g by omega, ← rep.groupFreeBlocks g (rep.groups ▸ hg)]
        exact count
      have := Alloc.some (V := V) nonzero (by rw [value]; exact inside) (by rw [value]; exact free)
        (by rw [value]; exact count')
      rwa [value] at this

namespace Vol

/-- The free blocks of group `g`, counted from its start. -/
def freeBits (V : Vol) (g : Nat) : Finset Nat := (Finset.range 32768).filter fun b => V.used (g * 32768 + b) = false

/-- The calls of `block_alloc` that can be answered from group `g`. -/
def groupAvail (V : Vol) (g : Nat) : Nat := min (V.groupFreeBlocks g).toNat (V.freeBits g).card

def avail (V : Vol) : Nat := ∑ g ∈ Finset.range V.groups, V.groupAvail g

theorem mem_freeBits {g b : Nat} : b ∈ V.freeBits g ↔ b < 32768 ∧ V.used (g * 32768 + b) = false := by
  rw [freeBits, Finset.mem_filter, Finset.mem_range]

theorem avail_congr {V' : Vol} (groups : V'.groups = V.groups) (used : V'.used = V.used)
    (counts : V'.groupFreeBlocks = V.groupFreeBlocks) : V'.avail = V.avail := by
  unfold avail groupAvail freeBits
  rw [groups, used, counts]

theorem groupAvail_take_of_ne {b g : Nat} (h : g ≠ b / 32768) : (V.take b).groupAvail g = V.groupAvail g := by
  have count : (V.take b).groupFreeBlocks g = V.groupFreeBlocks g := Function.update_of_ne h _ _
  have bits : (V.take b).freeBits g = V.freeBits g := by
    ext c
    rw [mem_freeBits, mem_freeBits]
    refine and_congr_right fun small => ?_
    have other : g * 32768 + c ≠ b := fun same => h (by omega)
    rw [show (V.take b).used (g * 32768 + c) = V.used (g * 32768 + c) from Function.update_of_ne other _ _]
  rw [groupAvail, count, bits, groupAvail]

theorem groupAvail_take {b : Nat} (free : V.used b = false) (count : V.groupFreeBlocks (b / 32768) ≠ 0) :
    (V.take b).groupAvail (b / 32768) + 1 = V.groupAvail (b / 32768) := by
  have value : b / 32768 * 32768 + b % 32768 = b := by omega
  have bits : (V.take b).freeBits (b / 32768) = (V.freeBits (b / 32768)).erase (b % 32768) := by
    ext c
    rw [Finset.mem_erase, mem_freeBits, mem_freeBits]
    simp only [take, Function.update_apply]
    by_cases same : c = b % 32768
    · subst same
      simp [value]
    · have other : b / 32768 * 32768 + c ≠ b := by omega
      simp [same, other]
  have here : b % 32768 ∈ V.freeBits (b / 32768) := by
    rw [mem_freeBits, value]
    exact ⟨Nat.mod_lt _ (by decide), free⟩
  have positive := Finset.card_pos.mpr ⟨_, here⟩
  have nonzero : (V.groupFreeBlocks (b / 32768)).toNat ≠ 0 := fun zero => count (UInt32.toNat_inj.mp zero)
  have counted : ((V.take b).groupFreeBlocks (b / 32768)).toNat + 1 = (V.groupFreeBlocks (b / 32768)).toNat := by
    rw [show (V.take b).groupFreeBlocks (b / 32768) = V.groupFreeBlocks (b / 32768) - 1 from Function.update_self _ _ _,
      UInt32.toNat_sub]
    have := (V.groupFreeBlocks (b / 32768)).toNat_lt
    simp only [UInt32.toNat_one]
    omega
  unfold groupAvail
  rw [bits, Finset.card_erase_of_mem here]
  omega

theorem avail_take {b : Nat} (bound : b < V.blocks) (free : V.used b = false)
    (count : V.groupFreeBlocks (b / 32768) ≠ 0) : (V.take b).avail + 1 = V.avail := by
  have hg : b / 32768 ∈ Finset.range V.groups := by
    simp only [blocks] at bound
    exact Finset.mem_range.mpr (by omega)
  unfold avail
  rw [show (V.take b).groups = V.groups from rfl, ← Finset.add_sum_erase _ _ hg, ← Finset.add_sum_erase _ V.groupAvail hg,
    ← groupAvail_take free count]
  rw [Finset.sum_congr rfl fun g hg => groupAvail_take_of_ne (Finset.ne_of_mem_erase hg)]
  omega

theorem avail_eq_zero : V.avail = 0 ↔ V.NoBlock := by
  unfold avail NoBlock
  rw [Finset.sum_eq_zero_iff]
  constructor
  · intro none b hb
    have group := none (b / 32768) (by simp only [blocks] at hb; exact Finset.mem_range.mpr (by omega))
    by_contra left
    rw [not_or] at left
    have free : V.used b = false := by simpa using left.2
    have := groupAvail_take free left.1
    omega
  · intro none g hg
    have hg := Finset.mem_range.mp hg
    unfold groupAvail
    by_contra left
    have some : 0 < (V.freeBits g).card := by omega
    obtain ⟨c, hc⟩ := Finset.card_pos.mp some
    rw [mem_freeBits] at hc
    have group : (g * 32768 + c) / 32768 = g := by omega
    rcases none (g * 32768 + c) (by simp only [blocks]; omega) with zero | used
    · rw [group] at zero
      rw [zero] at left
      exact left (by simp)
    · rw [hc.2] at used
      cases used

end Vol

theorem Rep.refresh (rep : Rep s V) : Rep s V.refresh := (Loads.refl s).rep rep

/-- What a call of `block_free` can do: the bitmap may be out of reach, and a clear bit stays clear. -/
inductive Free (V : Vol) (b : Nat) : Vol → Prop
  | kept : Free V b V.refresh
  | given (nonzero : b ≠ 0) (bound : b < V.blocks) (used : V.used b = true) : Free V b (V.give b)

theorem runs_blockFree (block : UInt32) :
    Runs Rep (blockFree block) V fun _ V' => Free V block.toNat V' := by
  intro s rep
  by_cases nonzero : block = 0
  · exact ⟨(), s, V.refresh, by simp [blockFree, nonzero], rep.refresh, .kept⟩
  by_cases outside : s.nrGroups ≤ block.toNat / 32768
  · exact ⟨(), s, V.refresh, by simp [blockFree, nonzero, bitmapForGroup, outside], rep.refresh, .kept⟩
  have hg : block.toNat / 32768 < s.nrGroups := by omega
  have value : block.toNat / 32768 * 32768 + block.toNat % 32768 = block.toNat := by omega
  obtain ⟨t, run, loads, -⟩ := run_bitmapForGroup rep.layout hg
  have rep' := loads.rep rep
  cases present : t.bitmaps (block.toNat / 32768) with
  | none => exact ⟨(), t, V.refresh, by simp [blockFree, nonzero, run, present], rep', .kept⟩
  | some bm =>
      by_cases taken : bitTest bm (block.toNat % 32768) = true
      · have inside : block.toNat < V.blocks := by
          rw [Vol.blocks, ← rep.groups]
          omega
        refine ⟨(), giveBlock (block.toNat / 32768) (block.toNat % 32768) bm t, V.give block.toNat, ?_, ?_, .given ?_ inside ?_⟩
        · simp [blockFree, nonzero, run, present, taken, cacheMarkDirty, BlockStore.cacheMarkDirty]
        · have := rep'.giveBlock (by rwa [loads.nrGroups]) (Nat.mod_lt block.toNat (by decide)) present
          rwa [value] at this
        · intro zero
          exact nonzero (UInt32.toNat_inj.mp zero)
        · rw [← rep.used _ inside, usedAt, ← loads.bitmap, bitmapOf, present]
          exact taken
      · exact ⟨(), t, V.refresh, by simp [blockFree, nonzero, run, present, taken], rep', .kept⟩

theorem Rep.setFreeInodes (rep : Rep s V) {g : Nat} {count : UInt32} {total : UInt64} :
    Rep { s with
        gd := Function.update s.gd g { s.gd g with freeInodesCount := count }
        sb := { s.sb with freeInodes := total } }
      { V with
        freeInodes := total
        groupFreeInodes := Function.update V.groupFreeInodes g count } where
  layout := rep.layout.updateGd rfl rfl rfl
  groups := rep.groups
  inode := rep.inode
  used := rep.used
  data := rep.data
  fds := rep.fds
  freeBlocks := rep.freeBlocks
  freeInodes := rfl
  groupFreeBlocks := by
    intro h hh
    simp only [Function.update_apply]
    split
    · next same => rw [← same]; exact rep.groupFreeBlocks h hh
    · exact rep.groupFreeBlocks h hh
  groupFreeInodes := by
    intro h hh
    simp only [Function.update_apply]
    split
    · rfl
    · exact rep.groupFreeInodes h hh
  exhausted := by
    intro h heap from_ g' hg'
    have := rep.exhausted h heap from_ g' hg'
    unfold GroupOut GroupFull at this ⊢
    simp only [Function.update_apply] at this ⊢
    split
    · next same => subst same; exact this
    · exact this
  roomy := rep.roomy
  answers := rep.answers

theorem runs_takeInode {i : Nat} (hi : i < V.inodes) :
    Runs Rep (modify (takeInode (i / 4096)) : FsM Disk Unit) V fun _ V' => V' = V.takeIno i := by
  intro s rep
  have hg : i / 4096 < V.groups := by simp only [Vol.inodes] at hi; omega
  refine ⟨(), _, _, rfl, ?_, rfl⟩
  rw [takeInode, Vol.takeIno, rep.groupFreeInodes _ hg, rep.freeInodes]
  exact rep.setFreeInodes

theorem runs_giveInode {i : Nat} (hi : i < V.inodes) :
    Runs Rep (modify (giveInode (i / 4096)) : FsM Disk Unit) V fun _ V' => V' = V.giveIno i := by
  intro s rep
  have hg : i / 4096 < V.groups := by simp only [Vol.inodes] at hi; omega
  refine ⟨(), _, _, rfl, ?_, rfl⟩
  rw [giveInode, Vol.giveIno, rep.groupFreeInodes _ hg, rep.freeInodes]
  exact rep.setFreeInodes

theorem runs_get : Runs Rep (get : FsM Disk _) V fun s V' => V' = V ∧ Rep s V :=
  fun s rep => ⟨s, s, V, rfl, rep, rfl, rep⟩

theorem Runs.refresh {α : Type} {x : FsM Disk α} {Q : α → Vol → Prop} (h : Runs Rep x V.refresh Q) :
    Runs Rep x V Q :=
  fun s rep => h s rep.refresh

theorem runs_bitmapForGroup {g : Nat} (hg : g < V.groups) :
    Runs Rep (bitmapForGroup g) V fun r V' => V' = V.refresh ∧ (V.roomy = true → r ≠ none) := by
  intro s rep
  obtain ⟨t, run, loads, -, refused⟩ := run_bitmapForGroup rep.layout (rep.groups ▸ hg)
  exact ⟨_, t, _, run, loads.rep rep, rfl, fun roomy absent => (refused absent).granted (rep.roomy roomy)⟩

def Vol.FreeIno (V : Vol) (i : Nat) : Prop :=
  0 < i ∧ i < V.inodes ∧ V.groupFreeInodes (i / 4096) ≠ 0 ∧ (V.inode i).mode = 0

inductive InoAlloc (V : Vol) (mode : UInt16) : Nat → Vol → Prop
  | none (full : V.roomy = true → ∀ i, ¬ V.FreeIno i) : InoAlloc V mode 0 V.refresh
  | some {i : Nat} (free : V.FreeIno i) (first : V.roomy = true → ∀ j < i, ¬ V.FreeIno j) :
      InoAlloc V mode i ((V.refresh.setInode i { Inode.zero with mode }).takeIno i)

theorem runs_inodeTake {i : Nat} (mode : UInt16) (hi : i < V.inodes) :
    Runs Rep (inodeTake mode (i / 4096) i) V.refresh fun r V' =>
      match r with
      | some j => j = i ∧ 0 < i ∧ (V.inode i).mode = 0 ∧ V' = (V.refresh.setInode i { Inode.zero with mode }).takeIno i
      | none => V' = V.refresh ∧ (0 < i → (V.inode i).mode ≠ 0) := by
  unfold inodeTake
  split
  · exact .pure ⟨rfl, by omega⟩
  refine .bind (runs_inodeRead hi) ?_
  rintro _ _ ⟨rfl, rfl⟩
  split
  · next free =>
      refine .bind (runs_inodeWrite (V := V.refresh) hi _) ?_
      rintro _ _ rfl
      refine .bind (runs_takeInode hi) ?_
      rintro _ _ rfl
      exact .pure ⟨rfl, by omega, free, rfl⟩
  · next taken => exact .pure ⟨rfl, fun _ => taken⟩

theorem runs_inodeAllocIn {g : Nat} (mode : UInt16) (hg : g < V.groups)
    (before : V.roomy = true → ∀ j < g * 4096, ¬ V.FreeIno j) :
    Runs Rep (inodeAllocIn mode g) V.refresh fun r V' =>
      match r with
      | some j => InoAlloc V mode j V'
      | none => V' = V.refresh ∧ (V.roomy = true → ∀ j < (g + 1) * 4096, ¬ V.FreeIno j) := by
  unfold inodeAllocIn
  refine .bind runs_get ?_
  rintro s _ ⟨rfl, rep⟩
  rw [rep.groupFreeInodes g hg]
  split
  · next empty =>
      refine .pure ⟨rfl, fun roomy j hj free => ?_⟩
      by_cases earlier : j < g * 4096
      · exact before roomy j earlier free
      · have group : j / 4096 = g := by omega
        exact free.2.2.1 (by rw [group]; exact empty)
  next some =>
  refine .bind (runs_bitmapForGroup hg) ?_
  rintro bm _ ⟨rfl, granted⟩
  cases bm with
  | none => exact .pure ⟨rfl, fun roomy => (granted roomy rfl).elim⟩
  | some bm =>
      refine Runs.search (fun i W => W = V.refresh ∧ (V.roomy = true → ∀ j < i, ¬ V.FreeIno j)) ⟨rfl, before⟩ ?_ ?_
      · rintro i _ lower upper ⟨rfl, before⟩
        have hi : i < V.inodes := by simp only [Vol.inodes]; omega
        have group : i / 4096 = g := by omega
        have := runs_inodeTake mode hi
        rw [group] at this
        refine this.mono ?_
        intro r V' h
        cases r with
        | some j =>
            obtain ⟨rfl, positive, free, rfl⟩ := h
            exact .some ⟨positive, hi, by rw [group]; exact some, free⟩ before
        | none =>
            refine ⟨h.1, fun roomy j hj free => ?_⟩
            rcases Nat.lt_succ_iff_lt_or_eq.mp hj with earlier | rfl
            · exact before roomy j earlier free
            · exact h.2 free.1 free.2.2.2
      · rintro _ ⟨rfl, all⟩
        exact ⟨rfl, fun roomy j hj => all roomy j (by omega)⟩

theorem runs_inodeAlloc (mode : UInt16) : Runs Rep (inodeAlloc mode) V (InoAlloc V mode) := by
  apply Runs.refresh
  unfold inodeAlloc
  refine .bind runs_get ?_
  rintro s _ ⟨rfl, rep⟩
  have groups : s.nrGroups = V.groups := rep.groups
  refine .bind (P := fun r V' => InoAlloc V mode (r.getD 0) V') ?_ fun r V' h => .pure h
  refine Runs.search (fun g W => W = V.refresh ∧ (V.roomy = true → ∀ j < g * 4096, ¬ V.FreeIno j))
    ⟨rfl, fun _ j hj => by omega⟩ ?_ ?_
  · rintro g _ - hg ⟨rfl, before⟩
    refine (runs_inodeAllocIn mode (by omega) before).mono ?_
    intro r V' h
    cases r with
    | some j => exact h
    | none => exact h
  · rintro _ ⟨rfl, all⟩
    refine .none fun roomy j free => all roomy j ?_ free
    have := free.2.1
    simp only [Vol.inodes] at this
    omega

theorem runs_inodeFree {i : Nat} (hi : i < V.inodes) (nonzero : i ≠ 0) :
    Runs Rep (inodeFree i) V fun _ V' => V' = (V.setInode i .zero).giveIno i := by
  unfold inodeFree
  rw [if_neg nonzero]
  refine .bind (runs_inodeWrite hi _) ?_
  rintro _ _ rfl
  exact runs_giveInode hi

end SwiftBSD.Proof.Fs
