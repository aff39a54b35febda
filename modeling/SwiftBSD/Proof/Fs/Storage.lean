import Mathlib.Data.Finset.Card
import SwiftBSD.Proof.Fs.DataCalls
import SwiftBSD.Proof.Fs.NewFile
import SwiftBSD.Proof.Fs.ReadEnd
import SwiftBSD.Proof.Fs.Room

namespace SwiftBSD.Proof.Fs
open Lib SwiftBSD.Fs

variable {s t u : FsState Disk} {P : Finset Nat} {x y : Inode} {b i : Nat}

/-- The groups of `P` whose bitmaps are not in memory. -/
def missing (s : FsState Disk) (P : Finset Nat) : Finset Nat := (P.image (· / 32768)).filter fun g => (s.bitmaps g).isNone

structure Spares (s : FsState Disk) (P : Finset Nat) (t : FsState Disk) : Prop where
  layout : Layout t
  groups : t.nrGroups = s.nrGroups
  dev : t.dev = s.dev
  others : ∀ c < 32768 * s.nrGroups, c ∉ P → usedAt t c = usedAt s c

/-- The blocks of `P` are given back if every bitmap that is missing can be loaded; otherwise one of them stays. -/
inductive Returns (s : FsState Disk) (P : Finset Nat) (t : FsState Disk) : Prop
  | all (granted : ∀ k < (missing s P).card, s.heap k = true) (heap : ∀ k, t.heap k = s.heap (k + (missing s P).card))
      (loaded : ∀ g, t.bitmaps g = none ↔ s.bitmaps g = none ∧ g ∉ missing s P) (clear : ∀ c ∈ P, usedAt t c = false)
      (count : t.sb.freeBlocks = s.sb.freeBlocks + .ofNat P.card)
  | part (refused : ∃ k < (missing s P).card, s.heap k = false) (left : ∃ c ∈ P, usedAt t c = true)

theorem Spares.refl (layout : Layout s) : Spares s ∅ s := ⟨layout, rfl, rfl, fun _ _ _ => rfl⟩

theorem Returns.refl (s : FsState Disk) : Returns s ∅ s := by
  have none : missing s ∅ = ∅ := rfl
  refine .all ?_ ?_ ?_ ?_ ?_
  · intro k small
    rw [none] at small
    cases small
  · intro k
    rw [none]
    rfl
  · intro g
    rw [none]
    exact ⟨fun absent => ⟨absent, Finset.notMem_empty g⟩, And.left⟩
  · intro c member
    cases member
  · exact (UInt64.add_zero _).symm

theorem missing_insert (s : FsState Disk) (P : Finset Nat) (b : Nat) :
    missing s (insert b P) = if s.bitmaps (b / 32768) = none then insert (b / 32768) (missing s P) else missing s P := by
  unfold missing
  rw [Finset.image_insert, Finset.filter_insert]
  simp only [Option.isNone_iff_eq_none]

/-- The states `block_free` goes through: the bitmap is there, or it is loaded, or it cannot be. -/
inductive FreeRun (s : FsState Disk) (b : Nat) (u : FsState Disk) : Prop
  | present (there : s.bitmaps (b / 32768) ≠ none) (heap : u.heap = s.heap) (loaded : ∀ g, u.bitmaps g = none ↔ s.bitmaps g = none)
      (clear : usedAt u b = false) (count : u.sb.freeBlocks = s.sb.freeBlocks + 1)
  | loads (absent : s.bitmaps (b / 32768) = none) (granted : s.heap 0 = true) (heap : ∀ k, u.heap k = s.heap (k + 1))
      (loaded : ∀ g, u.bitmaps g = none ↔ s.bitmaps g = none ∧ g ≠ b / 32768) (clear : usedAt u b = false)
      (count : u.sb.freeBlocks = s.sb.freeBlocks + 1)
  | refused (absent : s.bitmaps (b / 32768) = none) (denied : s.heap 0 = false) (left : usedAt u b = true)

theorem giveBlock_spec (layout : Layout s) (inside : b < 32768 * s.nrGroups) {bm : Block} (present : s.bitmaps (b / 32768) = some bm) :
    Spares s {b} (giveBlock (b / 32768) (b % 32768) bm s) ∧ usedAt (giveBlock (b / 32768) (b % 32768) bm s) b = false ∧
      (giveBlock (b / 32768) (b % 32768) bm s).sb.freeBlocks = s.sb.freeBlocks + 1 := by
  have value : b / 32768 * 32768 + b % 32768 = b := by omega
  have rep := (rep_volOf layout).giveBlock (b := b % 32768) (by omega) (Nat.mod_lt b (by decide)) present
  rw [value] at rep
  have bit (c : Nat) (small : c < 32768 * s.nrGroups) :
      usedAt (giveBlock (b / 32768) (b % 32768) bm s) c = Function.update (usedAt s) b false c := rep.used c small
  refine ⟨⟨rep.layout, rfl, rfl, fun c small other => ?_⟩, ?_, rfl⟩
  · rw [bit c small, Function.update_of_ne]
    rintro rfl
    exact other (Finset.mem_singleton_self c)
  · rw [bit b inside, Function.update_self]

theorem run_blockFree_disk (layout : Layout s) (nonzero : b ≠ 0) (inside : b < 32768 * s.nrGroups) (used : usedAt s b = true) :
    ∃ u, (blockFree (.ofNat b)).run s = some ((), u) ∧ Spares s {b} u ∧ FreeRun s b u := by
  have bound := layout.bound
  have number : (UInt32.ofNat b).toNat = b := by
    rw [UInt32.toNat_ofNat']
    omega
  have some_ : UInt32.ofNat b ≠ 0 := by
    intro zero
    rw [zero] at number
    exact nonzero number.symm
  have here : ¬ s.nrGroups ≤ b / 32768 := by omega
  cases present : s.bitmaps (b / 32768) with
  | some bm =>
      obtain ⟨spares, clear, count⟩ := giveBlock_spec layout inside present
      have set : bitTest bm (b % 32768) = true := by
        rw [usedAt, bitmapOf, present] at used
        exact used
      refine ⟨giveBlock (b / 32768) (b % 32768) bm s, ?_, spares, .present (by rw [present]; exact Option.some_ne_none bm) rfl (fun g => ?_) clear count⟩
      · simp [blockFree, some_, number, bitmapForGroup, here, present, set, cacheMarkDirty, BlockStore.cacheMarkDirty]
      · by_cases same : g = b / 32768
        · subst same
          simp [giveBlock, present]
        · simp [giveBlock, same]
  | none =>
      cases answer : s.heap 0 with
      | false =>
          refine ⟨{ s with heap := fun k => s.heap (k + 1) }, ?_, ⟨{ layout with }, rfl, rfl, fun _ _ _ => rfl⟩, .refused present answer used⟩
          simp [blockFree, some_, number, bitmapForGroup, kmalloc, here, present, answer]
      | true =>
          let bm := s.dev.block (bitmapBlock s.nrGroups (b / 32768))
          let t : FsState Disk := { s with
            heap := fun k => s.heap (k + 1)
            bitmaps := Function.update s.bitmaps (b / 32768) (some bm) }
          have layout' : Layout t := { layout with }
          have there : t.bitmaps (b / 32768) = some bm := Function.update_self ..
          have same (c : Nat) : usedAt t c = usedAt s c := by
            by_cases group : c / 32768 = b / 32768
            · rw [usedAt, usedAt, group, bitmapOf, there, bitmapOf, present]
              rfl
            · have kept : t.bitmaps (c / 32768) = s.bitmaps (c / 32768) := Function.update_of_ne group _ _
              rw [usedAt, bitmapOf, kept]
              rfl
          have set : bitTest bm (b % 32768) = true := by
            rw [usedAt, bitmapOf, present] at used
            exact used
          obtain ⟨spares, clear, count⟩ := giveBlock_spec layout' inside there
          refine ⟨giveBlock (b / 32768) (b % 32768) bm t, ?_, ⟨spares.layout, rfl, rfl, fun c small other => ?_⟩,
            .loads present answer (fun _ => rfl) (fun g => ?_) clear count⟩
          · have block : (s.gd (b / 32768)).blockBitmapBlock.toNat = bitmapBlock s.nrGroups (b / 32768) := layout.bitmap _ (by omega)
            simp [blockFree, some_, number, bitmapForGroup, kmalloc, here, present, answer, readBlock, BlockStore.readBlock, block, set, bm, t,
              cacheMarkDirty, BlockStore.cacheMarkDirty]
          · rw [spares.others c small other, same]
          · by_cases group : g = b / 32768
            · subst group
              simp [giveBlock]
            · simp [giveBlock, t, group]

theorem Spares.insert (first : Spares s P t) (second : Spares t {b} u) : Spares s (insert b P) u where
  layout := second.layout
  groups := second.groups.trans first.groups
  dev := second.dev.trans first.dev
  others := fun c small other => by
    rw [Finset.mem_insert, not_or] at other
    rw [second.others c (first.groups ▸ small) (by rw [Finset.mem_singleton]; exact other.1), first.others c small other.2]

theorem Returns.insert (returns : Returns s P t) (spares : Spares t {b} u) (run : FreeRun t b u) (new : b ∉ P)
    (inside : ∀ c ∈ P, c < 32768 * t.nrGroups) : Returns s (insert b P) u := by
  have kept (c : Nat) (member : c ∈ P) : usedAt u c = usedAt t c := by
    refine spares.others c (inside c member) fun same => ?_
    rw [Finset.mem_singleton] at same
    exact new (same ▸ member)
  cases returns with
  | part refused left =>
      obtain ⟨k, small, denied⟩ := refused
      obtain ⟨c, member, used⟩ := left
      refine .part ⟨k, Nat.lt_of_lt_of_le small ?_, denied⟩ ⟨c, Finset.mem_insert_of_mem member, (kept c member).trans used⟩
      rw [missing_insert]
      split
      · exact Finset.card_le_card (Finset.subset_insert _ _)
      · exact Nat.le_refl _
  | all granted heap loaded clear count =>
      have cleared (gone : usedAt u b = false) : ∀ c ∈ Insert.insert b P, usedAt u c = false := by
        intro c member
        rcases Finset.mem_insert.mp member with rfl | member
        · exact gone
        · rw [kept c member, clear c member]
      have counted (more : u.sb.freeBlocks = t.sb.freeBlocks + 1) :
          u.sb.freeBlocks = s.sb.freeBlocks + .ofNat (Insert.insert b P).card := by
        rw [more, count, Finset.card_insert_of_notMem new, UInt64.add_assoc, UInt64.ofNat_add]
        rfl
      by_cases here : s.bitmaps (b / 32768) = none ∧ b / 32768 ∉ missing s P
      · have absent := (loaded (b / 32768)).mpr here
        have more : missing s (Insert.insert b P) = Insert.insert (b / 32768) (missing s P) := by
          rw [missing_insert, if_pos here.1]
        have card : (missing s (Insert.insert b P)).card = (missing s P).card + 1 := by
          rw [more, Finset.card_insert_of_notMem here.2]
        have next : t.heap 0 = s.heap (missing s P).card := by rw [heap, Nat.zero_add]
        cases run with
        | present there => exact absurd absent there
        | refused _ denied left =>
            exact .part ⟨(missing s P).card, by omega, next.symm.trans denied⟩ ⟨b, Finset.mem_insert_self b P, left⟩
        | loads _ answer heap' loaded' gone more' =>
            refine .all (fun k small => ?_) (fun k => ?_) (fun g => ?_) (cleared gone) (counted more')
            · rcases Nat.lt_succ_iff_lt_or_eq.mp (card ▸ small) with earlier | rfl
              · exact granted k earlier
              · exact next.symm.trans answer
            · rw [heap', heap, card, Nat.add_right_comm, Nat.add_assoc]
            · rw [loaded', loaded, more, Finset.mem_insert, not_or, and_assoc, and_comm (a := g ≠ b / 32768)]
      · have there : t.bitmaps (b / 32768) ≠ none := fun absent => here ((loaded _).mp absent)
        have same : missing s (Insert.insert b P) = missing s P := by
          rw [missing_insert]
          split
          · next absent => exact Finset.insert_eq_self.mpr (not_not.mp fun out => here ⟨absent, out⟩)
          · rfl
        cases run with
        | loads absent => exact absurd absent there
        | refused absent => exact absurd absent there
        | present _ heap' loaded' gone more' =>
            refine .all ?_ (fun k => ?_) (fun g => ?_) (cleared gone) (counted more')
            · rw [same]
              exact granted
            · rw [heap', heap, same]
            · rw [loaded', loaded, same]

/-- The numbers in the inode itself, without those in `k` for `k ∈ rest`. -/
def heads (x : Inode) (rest : List (Fin 12)) : Finset Nat :=
  ((Finset.univ.filter fun k : Fin 12 => k ∉ rest).image fun k => (x.direct k).toNat).erase 0

def named (x : Inode) : Finset Nat := (insert x.indirect.toNat (heads x [])).erase 0

theorem mem_heads {rest : List (Fin 12)} : b ∈ heads x rest ↔ b ≠ 0 ∧ ∃ k ∉ rest, (x.direct k).toNat = b := by
  unfold heads
  rw [Finset.mem_erase, Finset.mem_image]
  simp only [Finset.mem_filter, Finset.mem_univ, true_and]

theorem mem_named : b ∈ named x ↔ b ≠ 0 ∧ (x.indirect.toNat = b ∨ ∃ k, (x.direct k).toNat = b) := by
  unfold named
  rw [Finset.mem_erase, Finset.mem_insert, mem_heads]
  simp only [List.not_mem_nil, not_false_eq_true, true_and]
  constructor
  · rintro ⟨nonzero, same | ⟨-, direct⟩⟩
    · exact ⟨nonzero, .inl same.symm⟩
    · exact ⟨nonzero, .inr direct⟩
  · rintro ⟨nonzero, same | direct⟩
    · exact ⟨nonzero, .inl same.symm⟩
    · exact ⟨nonzero, .inr ⟨nonzero, direct⟩⟩

/-- The numbers in the inode are different used blocks. -/
structure Names (s : FsState Disk) (x : Inode) : Prop where
  inside : ∀ c ∈ named x, c < 32768 * s.nrGroups
  used : ∀ c ∈ named x, usedAt s c = true
  distinct : ∀ j k, (x.direct j).toNat ≠ 0 → x.direct j = x.direct k → j = k
  table : ∀ k, (x.direct k).toNat ≠ 0 → x.direct k ≠ x.indirect
  double : x.doubleIndirect = 0

theorem heads_cons {k : Fin 12} {rest : List (Fin 12)} (fresh : k ∉ rest) :
    heads x rest = if x.direct k = 0 then heads x (k :: rest) else insert (x.direct k).toNat (heads x (k :: rest)) := by
  ext b
  have split (j : Fin 12) : j ∉ rest ↔ j = k ∨ j ∉ k :: rest := by
    rw [List.mem_cons, not_or]
    by_cases same : j = k
    · subst same
      simp [fresh]
    · simp [same]
  have listed : b ∈ heads x rest ↔ b ≠ 0 ∧ ((x.direct k).toNat = b ∨ ∃ j ∉ k :: rest, (x.direct j).toNat = b) := by
    rw [mem_heads]
    refine and_congr_right fun _ => ⟨?_, ?_⟩
    · rintro ⟨j, out, rfl⟩
      rcases (split j).mp out with rfl | out
      · exact .inl rfl
      · exact .inr ⟨j, out, rfl⟩
    · rintro (same | ⟨j, out, same⟩)
      · exact ⟨k, fresh, same⟩
      · exact ⟨j, (split j).mpr (.inr out), same⟩
  rw [listed]
  by_cases empty : x.direct k = 0
  · rw [if_pos empty, mem_heads]
    refine and_congr_right fun nonzero => or_iff_right fun same => nonzero ?_
    rw [← same, empty]
    rfl
  · rw [if_neg empty, Finset.mem_insert, mem_heads]
    have nonzero : (x.direct k).toNat ≠ 0 := fun zero => empty (uint32_eq_zero.mp zero)
    constructor
    · rintro ⟨some_, same | other⟩
      · exact .inl same.symm
      · exact .inr ⟨some_, other⟩
    · rintro (rfl | ⟨some_, other⟩)
      · exact ⟨nonzero, .inl rfl⟩
      · exact ⟨some_, .inr other⟩

theorem heads_all : heads x (List.finRange 12) = ∅ := by
  refine Finset.eq_empty_of_forall_notMem fun b member => ?_
  obtain ⟨-, k, out, -⟩ := mem_heads.mp member
  exact out (List.mem_finRange k)

theorem heads_subset (x : Inode) (rest : List (Fin 12)) : heads x rest ⊆ named x := by
  intro b member
  obtain ⟨nonzero, k, -, same⟩ := mem_heads.mp member
  exact mem_named.mpr ⟨nonzero, .inr ⟨k, same⟩⟩

theorem run_blockFree_next (names : Names s x) (subset : P ⊆ named x) (spares : Spares s P t) (returns : Returns s P t)
    (member : b ∈ named x) (new : b ∉ P) :
    ∃ u, (blockFree (.ofNat b)).run t = some ((), u) ∧ Spares s (insert b P) u ∧ Returns s (insert b P) u := by
  have nonzero : b ≠ 0 := (mem_named.mp member).1
  have inside := names.inside b member
  have used := (spares.others b inside new).trans (names.used b member)
  obtain ⟨u, run, spares', free⟩ := run_blockFree_disk spares.layout nonzero (spares.groups ▸ inside) used
  refine ⟨u, run, spares.insert spares', returns.insert spares' free new fun c old => ?_⟩
  rw [spares.groups]
  exact names.inside c (subset old)

theorem run_freeBlocks (layout : Layout s) (names : Names s x) :
    Runs Eq (freeBlocks x) s fun y t => y = bare x ∧ Spares s (named x) t ∧ Returns s (named x) t := by
  unfold freeBlocks
  refine .bind (Runs.foldlM (fun rest y t => rest.Nodup ∧ Spares s (heads x rest) t ∧ Returns s (heads x rest) t ∧
    y = { x with direct := fun k => if k ∈ rest then x.direct k else 0 }) ?_ ?_) ?_
  · rw [heads_all]
    refine ⟨List.nodup_finRange 12, .refl layout, .refl s, ?_⟩
    simp only [List.mem_finRange, if_true]
  · rintro k rest y t ⟨nodup, spares, returns, current⟩
    obtain ⟨fresh, nodup⟩ := List.nodup_cons.mp nodup
    have value : y.direct k = x.direct k := by
      rw [current]
      exact if_pos List.mem_cons_self
    have next : y.setDirect k 0 = { x with direct := fun j => if j ∈ rest then x.direct j else 0 } := by
      rw [current, Inode.setDirect, Inode.mk.injEq]
      refine ⟨rfl, rfl, rfl, rfl, rfl, rfl, rfl, rfl, funext fun j => ?_, rfl, rfl, rfl⟩
      by_cases same : j = k
      · subst same
        rw [Function.update_self, if_neg fresh]
      · simp [same]
    rw [heads_cons fresh, ← next, value]
    by_cases empty : x.direct k = 0
    · rw [if_neg (not_not.mpr empty), if_pos empty]
      refine .pure ⟨nodup, spares, returns, ?_⟩
      rw [Inode.setDirect, ← empty, ← value, Function.update_eq_self]
    · rw [if_pos empty, if_neg empty]
      have nonzero : (x.direct k).toNat ≠ 0 := fun zero => empty (uint32_eq_zero.mp zero)
      have new : (x.direct k).toNat ∉ heads x (k :: rest) := by
        intro member
        obtain ⟨-, j, out, same⟩ := mem_heads.mp member
        exact out (names.distinct k j nonzero (UInt32.toNat_inj.mp same.symm) ▸ List.mem_cons_self)
      obtain ⟨u, run, spares', returns'⟩ := run_blockFree_next names (heads_subset x _) spares returns
        (mem_named.mpr ⟨nonzero, .inr ⟨k, rfl⟩⟩) new
      rw [UInt32.ofNat_toNat] at run
      rintro _ rfl
      exact ⟨_, u, u, by rw [run_bind_some run]; rfl, rfl, nodup, spares', returns', rfl⟩
  · rintro y t ⟨-, spares, returns, rfl⟩
    have result : { x with direct := fun _ => 0, indirect := 0, doubleIndirect := 0 } = bare x := rfl
    simp only [List.not_mem_nil, if_false, names.double, ne_eq, not_true_eq_false, result]
    by_cases empty : x.indirect = 0
    · have same : named x = heads x [] := by
        unfold named
        rw [empty]
        ext b
        simp [mem_heads]
      rw [if_neg (not_not.mpr empty), same]
      exact .pure ⟨rfl, spares, returns⟩
    · rw [if_pos empty]
      have nonzero : x.indirect.toNat ≠ 0 := fun zero => empty (uint32_eq_zero.mp zero)
      have new : x.indirect.toNat ∉ heads x [] := by
        intro member
        obtain ⟨-, k, -, same⟩ := mem_heads.mp member
        exact names.table k (by rw [same]; exact nonzero) (UInt32.toNat_inj.mp same)
      have same : named x = insert x.indirect.toNat (heads x []) := by
        refine Finset.erase_eq_of_notMem fun member => ?_
        rcases Finset.mem_insert.mp member with zero | member
        · exact nonzero zero.symm
        · exact (mem_heads.mp member).1 rfl
      obtain ⟨u, run, spares', returns'⟩ := run_blockFree_next names (heads_subset x _) spares returns
        (mem_named.mpr ⟨nonzero, .inl rfl⟩) new
      rw [UInt32.ofNat_toNat] at run
      rw [same]
      rintro _ rfl
      exact ⟨_, u, u, by rw [run_bind_some run]; rfl, rfl, rfl, spares', returns'⟩

/-- The direct blocks of inode `i`, its indirect block and the entries of that. -/
def storage (s : FsState Disk) (i : Nat) : Finset Nat := ((Finset.range 1037).image (slot s.dev.block (inodeAt s i))).erase 0

/-- The storage of `i` is free in `t`, is counted, and nothing else has changed in the bitmaps. -/
structure Released (s t : FsState Disk) (i : Nat) : Prop where
  clear : ∀ c ∈ storage s i, usedAt t c = false
  count : t.sb.freeBlocks = s.sb.freeBlocks + .ofNat (storage s i).card
  others : ∀ c < 32768 * s.nrGroups, c ∉ storage s i → usedAt t c = usedAt s c

/-- The file has no block in its indirect table, and the heap grants the bitmaps that are not in memory. -/
def Releasable (s : FsState Disk) (i : Nat) : Prop :=
  (∀ l, 12 ≤ l → l < 1036 → fileBlock s.dev.block (inodeAt s i) l = 0) ∧ ∀ k < (missing s (storage s i)).card, s.heap k = true

theorem mem_storage : b ∈ storage s i ↔ b ≠ 0 ∧ ∃ k < 1037, slot s.dev.block (inodeAt s i) k = b := by
  unfold storage
  rw [Finset.mem_erase, Finset.mem_image]
  simp only [Finset.mem_range]

section Owned
variable {R : Nat → Prop} (own : Own R (volOf s)) (hi : i < 4096 * s.nrGroups)
include own hi

omit own in
theorem slots_volOf (k : Nat) : (volOf s).slots (i, k) = slot s.dev.block (inodeAt s i) k := slots_of_lt (V := volOf s) hi k

theorem storage_used (member : b ∈ storage s i) : b < 32768 * s.nrGroups ∧ usedAt s b = true := by
  obtain ⟨nonzero, k, -, rfl⟩ := mem_storage.mp member
  rw [← slots_volOf hi] at nonzero ⊢
  exact own.owns.marked (i, k) nonzero

theorem slot_inj {j k : Nat} (nonzero : slot s.dev.block (inodeAt s i) j ≠ 0)
    (same : slot s.dev.block (inodeAt s i) j = slot s.dev.block (inodeAt s i) k) : j = k := by
  rw [← slots_volOf hi] at nonzero same
  rw [← slots_volOf hi] at same
  exact (Prod.mk.inj (own.owns.unique _ _ nonzero same)).2

omit own hi in
theorem slot_direct (data : Nat → Block) (x : Inode) (k : Fin 12) : slot data x k = (x.direct k).toNat := by
  rw [slot_of_lt (by omega), fileBlock, dif_pos k.isLt]

omit own hi in
theorem named_subset : named (inodeAt s i) ⊆ storage s i := by
  intro b member
  obtain ⟨nonzero, table | ⟨k, direct⟩⟩ := mem_named.mp member
  · exact mem_storage.mpr ⟨nonzero, 1036, by omega, (slot_table _ _).trans table⟩
  · exact mem_storage.mpr ⟨nonzero, k, by omega, (slot_direct _ _ k).trans direct⟩

theorem names_inodeAt (double : (inodeAt s i).doubleIndirect = 0) : Names s (inodeAt s i) where
  inside := fun c member => (storage_used own hi (named_subset member)).1
  used := fun c member => (storage_used own hi (named_subset member)).2
  distinct := fun j k nonzero same => by
    rw [← slot_direct s.dev.block] at nonzero
    have := slot_inj own hi nonzero (k := k) (by rw [slot_direct, slot_direct, same])
    exact Fin.ext this
  table := fun k nonzero same => by
    rw [← slot_direct s.dev.block] at nonzero
    have := slot_inj own hi nonzero (k := 1036) (by rw [slot_direct, slot_table, same])
    omega
  double := double

theorem entry_not_named {l : Nat} (lower : 12 ≤ l) (upper : l < 1036) (present : fileBlock s.dev.block (inodeAt s i) l ≠ 0) :
    fileBlock s.dev.block (inodeAt s i) l ∈ storage s i ∧ fileBlock s.dev.block (inodeAt s i) l ∉ named (inodeAt s i) := by
  rw [← slot_of_lt upper] at present ⊢
  refine ⟨mem_storage.mpr ⟨present, l, by omega, rfl⟩, fun member => ?_⟩
  obtain ⟨-, table | ⟨k, direct⟩⟩ := mem_named.mp member
  · have := slot_inj own hi present (k := 1036) (by rw [slot_table, table])
    omega
  · have := slot_inj own hi present (k := k) (by rw [slot_direct, direct])
    omega

omit own hi in
theorem storage_eq_named (entries : ∀ l, 12 ≤ l → l < 1036 → fileBlock s.dev.block (inodeAt s i) l = 0) :
    storage s i = named (inodeAt s i) := by
  refine Finset.Subset.antisymm (fun b member => ?_) named_subset
  obtain ⟨nonzero, k, small, rfl⟩ := mem_storage.mp member
  by_cases direct : k < 12
  · exact mem_named.mpr ⟨nonzero, .inr ⟨⟨k, direct⟩, (slot_direct _ _ ⟨k, direct⟩).symm⟩⟩
  · by_cases table : k = 1036
    · subst table
      exact mem_named.mpr ⟨nonzero, .inl (slot_table _ _).symm⟩
    · rw [slot_of_lt (by omega), entries k (by omega) (by omega)] at nonzero
      exact absurd rfl nonzero

theorem released_iff (spares : Spares s (named (inodeAt s i)) t) (returns : Returns s (named (inodeAt s i)) t) :
    Released s t i ↔ Releasable s i := by
  constructor
  · intro released
    have entries : ∀ l, 12 ≤ l → l < 1036 → fileBlock s.dev.block (inodeAt s i) l = 0 := by
      intro l lower upper
      by_contra present
      obtain ⟨member, out⟩ := entry_not_named own hi lower upper present
      obtain ⟨inside, used⟩ := storage_used own hi member
      have clear := released.clear _ member
      rw [spares.others _ inside out, used] at clear
      cases clear
    refine ⟨entries, ?_⟩
    rw [storage_eq_named entries]
    cases returns with
    | all granted => exact granted
    | part _ left =>
        obtain ⟨c, member, used⟩ := left
        have clear := released.clear c (named_subset member)
        rw [used] at clear
        cases clear
  · rintro ⟨entries, granted⟩
    have same := storage_eq_named entries
    rw [same] at granted
    cases returns with
    | all _ _ _ clear count =>
        refine ⟨?_, ?_, ?_⟩
        · rw [same]
          exact clear
        · rw [same]
          exact count
        · rw [same]
          exact spares.others
    | part refused =>
        obtain ⟨k, small, denied⟩ := refused
        rw [granted k small] at denied
        cases denied

end Owned

theorem Released.congr {s' t' : FsState Disk} (groups : s'.nrGroups = s.nrGroups) (storage' : storage s' i = storage s i)
    (before : ∀ c < 32768 * s.nrGroups, usedAt s' c = usedAt s c) (count : s'.sb.freeBlocks = s.sb.freeBlocks)
    (inside : ∀ c ∈ storage s i, c < 32768 * s.nrGroups) (after : ∀ c < 32768 * s.nrGroups, usedAt t' c = usedAt t c)
    (count' : t'.sb.freeBlocks = t.sb.freeBlocks) : Released s' t' i ↔ Released s t i := by
  constructor
  · rintro ⟨clear, counted, others⟩
    rw [storage'] at clear counted others
    rw [groups] at others
    refine ⟨fun c member => ?_, ?_, fun c small out => ?_⟩
    · rw [← after c (inside c member), clear c member]
    · rw [← count', counted, count]
    · rw [← after c small, others c small out, before c small]
  · rintro ⟨clear, counted, others⟩
    refine ⟨fun c member => ?_, ?_, fun c small out => ?_⟩
    · rw [storage'] at member
      rw [after c (inside c member), clear c member]
    · rw [count', counted, count, storage']
    · rw [groups] at small
      rw [storage'] at out
      rw [after c small, others c small out, before c small]

abbrev KeepsAll {α : Type} (x : FsM Disk α) : Prop := Keeps (fun s : FsState Disk => s) x

theorem keepsAll_load (b : Nat) : KeepsAll (load (σ := Disk) b) := by
  intro s a t run
  cases run
  rfl

theorem keepsAll_cacheGet (b : Nat) : KeepsAll (cacheGet b : FsM Disk _) := by
  intro s a t run
  cases run
  rfl

theorem keepsAll_inodeRead (ino : Nat) : KeepsAll (inodeRead ino : FsM Disk _) := by
  unfold inodeRead
  refine .bind ?_ fun place => ?_
  · unfold inodeBlockAndOffset
    refine .bind .get fun s => ?_
    dsimp only
    split
    · exact .pure _
    · exact .failure
  · exact .bind (keepsAll_cacheGet _) fun slot => .bind (keepsAll_load slot) fun _ => .pure _

theorem keepsAll_bmapRead (x : Inode) (l : Nat) : KeepsAll (bmapRead x l false : FsM Disk _) := by
  intro s a t run
  rw [run_bmapRead] at run
  cases run
  rfl

theorem keepsAll_pathWalk (path : List UInt8) : KeepsAll (pathWalk path : FsM Disk _) := by
  have lookup (x : Inode) (name : List UInt8) : KeepsAll (dirLookup x name : FsM Disk _) := by
    unfold dirLookup
    refine .bind (.search (fun bi => ?_) _ _) fun _ => .pure _
    refine .bind (keepsAll_bmapRead _ _) fun place => ?_
    dsimp only
    split
    · exact .pure _
    refine .bind (keepsAll_cacheGet _) fun slot => .bind (keepsAll_load slot) fun b => ?_
    split
    · exact .failure
    · exact .pure _
    · exact .pure _
  have walk (components : List (List UInt8)) (ino : Nat) : KeepsAll (walkFrom ino components : FsM Disk _) := by
    induction components generalizing ino with
    | nil => exact .pure _
    | cons component rest ih =>
        unfold walkFrom
        refine .bind (keepsAll_inodeRead _) fun x => ?_
        split
        · exact .pure _
        refine .bind (lookup _ _) fun found => ?_
        split
        · exact .pure _
        · exact ih _
  exact walk _ _

theorem keepsAll_parentWalk (path : List UInt8) : KeepsAll (parentWalk path : FsM Disk _) := by
  unfold parentWalk
  split
  · exact keepsAll_pathWalk _
  · exact .pure _

theorem searchM_last {τ α : Type} {body : Nat → Prog τ (Option α)} {s t : τ} {a : α} {i n : Nat} (Q : α → τ → Prop)
    (passes : ∀ j t, (body j).run s = some (none, t) → t = s) (ends : ∀ j a t, (body j).run s = some (some a, t) → Q a t)
    (run : (searchM body i n).run s = some (some a, t)) : Q a t := by
  induction n generalizing i with
  | zero => cases run
  | succ n ih =>
      unfold searchM at run
      obtain ⟨r, s', first, rest⟩ := run_bind_eq_some.mp run
      cases r with
      | none =>
          obtain rfl := passes i s' first
          exact ih rest
      | some b =>
          cases rest
          exact ends i _ _ first

theorem removeEntry_run {name : List UInt8} (run : (removeEntry x name).run s = some (true, t)) :
    ∃ l v, fileBlock s.dev.block x l ≠ 0 ∧ t = { s with dev := s.dev.set (fileBlock s.dev.block x l) v } := by
  unfold removeEntry at run
  split at run
  · cases run
  obtain ⟨found, s₁, search, last⟩ := run_bind_eq_some.mp run
  cases found with
  | none => cases last
  | some erased =>
      cases last
      refine searchM_last (fun erased t => erased = true →
        ∃ l v, fileBlock s.dev.block x l ≠ 0 ∧ t = { s with dev := s.dev.set (fileBlock s.dev.block x l) v }) ?_ ?_ search rfl
      · intro j t body
        rw [run_bind_some (run_bmapRead x j)] at body
        simp only [ofNat_fileBlock_eq_zero, toNat_ofNat_fileBlock] at body
        split at body
        · cases body
        rw [run_bind_some (run_cacheGet s _), run_bind_some (run_load s _)] at body
        split at body
        · cases body
        · cases body
          rfl
        · cases body
      · intro j erased t body erased_
        rw [run_bind_some (run_bmapRead x j)] at body
        simp only [ofNat_fileBlock_eq_zero, toNat_ofNat_fileBlock] at body
        split at body
        · cases body
          cases erased_
        next present =>
        rw [run_bind_some (run_cacheGet s _), run_bind_some (run_load s _)] at body
        split at body
        · cases body
        · cases body
        · rw [run_bind_some (run_put s _ _ _)] at body
          cases body
          exact ⟨j, _, present, rfl⟩

section Calls
variable {R : Nat → Prop} {V : Vol} {D : Nat → List (List Rec)} {path : CString} {s' : FsState Disk}
  (rep : Rep s V) (consistent : Consistent R dirModes V D) (found : (pathWalk path.bytes).run s = some (some i, t))
include rep consistent

theorem double_inodeAt (hi : i < V.inodes) : (inodeAt s i).doubleIndirect = 0 := by
  rw [rep.inode i hi]
  exact consistent.double i hi

include found

theorem found_lt : i < V.inodes := consistent.resolve_lt (pathWalk_run rep consistent found).symm

theorem found_pos : i ≠ 0 := Nat.pos_iff_ne_zero.mp (resolve_pos (pathWalk_run rep consistent found).symm)

theorem unlink_released (run : (swiftfs2Unlink path.bytes).run s = some (0, s')) : Released s s' i ↔ Releasable s i := by
  have groups := rep.groups
  have hi := found_lt rep consistent found
  have hi' : i < 4096 * s.nrGroups := by rw [groups]; exact hi
  have rep₀ := rep_volOf rep.layout
  have own₀ := rep.own_volOf consistent.own
  unfold swiftfs2Unlink at run
  obtain ⟨p, s₁, walk, run⟩ := run_bind_eq_some.mp run
  obtain rfl : s₁ = s := keepsAll_parentWalk _ _ _ _ walk
  cases p with
  | none => cases run
  | some p =>
      obtain ⟨s₂, parent, -⟩ := run_parentWalk rep consistent path
      have hp : p < V.inodes := consistent.parentOf_lt (Prod.mk.inj (Option.some.inj (parent.symm.trans walk))).1
      have hp' : p < 4096 * s₁.nrGroups := by rw [groups]; exact hp
      obtain rfl : t = s₁ := keepsAll_pathWalk _ _ _ _ found
      dsimp only at run
      rw [run_bind_some found] at run
      dsimp only at run
      rw [run_bind_some (run_inodeRead rep₀ hi'), run_bind_some (run_inodeRead rep₀ hp')] at run
      obtain ⟨erased, s₃, remove, run⟩ := run_bind_eq_some.mp run
      cases erased with
      | false => cases run
      | true =>
          rw [if_pos rfl] at run
          obtain ⟨l, v, present, rfl⟩ := removeEntry_run remove
          have stored : (volOf t).slots (p, l) = fileBlock t.dev.block (inodeAt t p) l := by
            rw [slots_volOf hp', slot_of_lt (lt_of_fileBlock_ne present)]
          have table := own₀.not_table (i := p) (lt_of_fileBlock_ne present) (by rw [stored]; exact present)
          have inside := own₀.not_meta (p := (p, l)) (by rw [stored]; exact present)
          rw [stored] at table inside
          let b := fileBlock t.dev.block (inodeAt t p) l
          let t₁ : FsState Disk := { t with dev := t.dev.set b v }
          have run : (do
            let x ← inodeRead i
            let _ ← freeBlocks x
            inodeFree i
            return 0 : FsM Disk Int).run t₁ = some (0, s') := run
          have rep₁ : Rep t₁ ((volOf t).setData b v) := rep₀.setData inside v
          have own₁ : Own R (volOf t₁) := rep₁.own_volOf (own₀.setData v table)
          have inode : inodeAt t₁ i = inodeAt t i := rep₁.inode i hi'
          have used (c : Nat) (small : c < 32768 * t.nrGroups) : usedAt t c = usedAt t₁ c := (rep₁.used c small).symm
          have other : (inodeAt t i).indirect.toNat ≠ b := table i hi'
          have blocks (c : Nat) (away : c ≠ b) : t₁.dev.block c = t.dev.block c := Function.update_of_ne away _ _
          have slots : slot t₁.dev.block (inodeAt t₁ i) = slot t.dev.block (inodeAt t i) := by
            rw [inode]
            exact slot_congr fun _ => blocks _ other
          have storage₁ : storage t i = storage t₁ i := by
            unfold storage
            rw [slots]
          have double : (inodeAt t₁ i).doubleIndirect = 0 := by
            rw [inode]
            exact double_inodeAt rep consistent hi
          obtain ⟨y, u, _, free, rfl, -, spares, returns⟩ := run_freeBlocks rep₁.layout (names_inodeAt own₁ hi' double) t₁ rfl
          have read : (inodeRead i).run t₁ = some (inodeAt t₁ i, t₁) := run_inodeRead (rep_volOf rep₁.layout) hi'
          have hu : i < (volOf u).inodes := by
            change i < 4096 * u.nrGroups
            rw [spares.groups]
            exact hi'
          obtain ⟨_, s₄, V₄, last, rep₄, rfl⟩ := runs_inodeFree hu (found_pos rep consistent found) u (rep_volOf spares.layout)
          rw [run_bind_some read, run_bind_some free, run_bind_some last] at run
          cases run
          have after (c : Nat) (small : c < 32768 * t.nrGroups) : usedAt s' c = usedAt u c := by
            refine rep₄.used c ?_
            change c < 32768 * u.nrGroups
            rw [spares.groups]
            exact small
          have released := released_iff own₁ hi' spares returns
          have count : t.sb.freeBlocks = t₁.sb.freeBlocks := rfl
          have count' : s'.sb.freeBlocks = u.sb.freeBlocks := rep₄.freeBlocks
          have inside₁ (c : Nat) (member : c ∈ storage t₁ i) : c < 32768 * t₁.nrGroups := (storage_used own₁ hi' member).1
          have moved : Released t s' i ↔ Released t₁ u i := Released.congr rfl storage₁ used count inside₁ after count'
          rw [moved, released]
          unfold Releasable
          rw [← storage₁]
          refine and_congr_left fun _ => forall_congr' fun l => forall_congr' fun _ => forall_congr' fun upper => ?_
          rw [← slot_of_lt upper, ← slot_of_lt upper, slots]

theorem trunc_released {flags : UInt32} {fd : Int} (trunc : flags &&& oTrunc ≠ 0)
    (run : (swiftfs2Open path.bytes flags).run s = some (fd, s')) (opened : 0 ≤ fd) : Released s s' i ↔ Releasable s i := by
  have groups := rep.groups
  have hi := found_lt rep consistent found
  have hi' : i < 4096 * s.nrGroups := by rw [groups]; exact hi
  have rep₀ := rep_volOf rep.layout
  have own₀ := rep.own_volOf consistent.own
  obtain rfl : t = s := keepsAll_pathWalk _ _ _ _ found
  have resolved : (openResolve path.bytes flags).run t = some (some i, t) := by
    unfold openResolve
    rw [run_bind_some found]
    rfl
  unfold swiftfs2Open at run
  rw [run_bind_some (x := get) (s := t) rfl, rep.layout.mounted] at run
  simp only [Bool.not_true, Bool.false_eq_true, if_false] at run
  rw [run_bind_some resolved] at run
  have read : (inodeRead i).run t = some (inodeAt t i, t) := run_inodeRead rep₀ hi'
  dsimp only at run
  rw [run_bind_some read] at run
  split at run
  · cases run
    cases opened
  obtain ⟨y, u, _, free, rfl, rfl, spares, returns⟩ :=
    run_freeBlocks rep.layout (names_inodeAt own₀ hi' (double_inodeAt rep consistent hi)) t rfl
  have hu : i < (volOf u).inodes := by
    change i < 4096 * u.nrGroups
    rw [spares.groups]
    exact hi'
  obtain ⟨_, s₃, V₃, write, rep₃, rfl⟩ :=
    runs_inodeWrite hu { bare (inodeAt t i) with size := 0, blockCount := 0 } u (rep_volOf spares.layout)
  have truncate : (openTrunc i (inodeAt t i)).run t = some ((), s₃) := by
    unfold openTrunc
    rw [run_bind_some free, write]
  rw [run_bind_some truncate] at run
  obtain ⟨r, s₄, V₄, last, rep₄, post⟩ := runs_openFd i flags s₃ rep₃
  obtain ⟨rfl, rfl⟩ := Prod.mk.inj (Option.some.inj (last.symm.trans run))
  have same : V₄.used = (volOf u).used ∧ V₄.freeBlocks = (volOf u).freeBlocks ∧ V₄.blocks = (volOf u).blocks := by
    rcases post with ⟨-, rfl, -⟩ | ⟨_, -, rfl, -⟩
    · exact ⟨rfl, rfl, rfl⟩
    · exact ⟨rfl, rfl, rfl⟩
  have after (c : Nat) (small : c < 32768 * t.nrGroups) : usedAt s₄ c = usedAt u c := by
    refine (rep₄.used c ?_).trans (congrFun same.1 c)
    rw [same.2.2]
    change c < 32768 * u.nrGroups
    rw [spares.groups]
    exact small
  have released := released_iff own₀ hi' spares returns
  exact (Released.congr rfl rfl (fun _ _ => rfl) rfl (fun c member => (storage_used own₀ hi' member).1) after
    (rep₄.freeBlocks.trans same.2.1)).trans released

end Calls

/-- Truncating or removing a file releases its storage if and only if it has no block in its indirect table and the missing bitmaps can
be loaded. -/
theorem storage_released_iff {sizeMb : Nat} {img : Disk} {heap : Nat → Bool} {s₀ : FsState Disk} {path : CString}
    (one : (Geometry.ofMb sizeMb).nrGroups = 1) (made : mkfs sizeMb = some img) (mounted : swiftfs2Mount.run (FsState.boot img heap) = some (0, s₀))
    (reach : ReachBoot Admissible s₀ s) (found : (pathWalk path.bytes).run s = some (some i, t)) :
    (∀ flags fd s', flags &&& oTrunc ≠ 0 → (swiftfs2Open path.bytes flags).run s = some (fd, s') → 0 ≤ fd →
        (Released s s' i ↔ Releasable s i)) ∧
      ∀ s', (swiftfs2Unlink path.bytes).run s = some (0, s') → (Released s s' i ↔ Releasable s i) := by
  obtain ⟨V, D, rep, consistent⟩ := reachBoot_sound (fun _ _ _ _ => Admissible.safe)
    (mkfs_sound one made mounted fun x => (dirModes_isDir x).mpr) reach
  exact ⟨fun flags fd s' trunc run opened => trunc_released rep consistent found trunc run opened,
    fun s' run => unlink_released rep consistent found run⟩

theorem truncating_open_run {R : Nat → Prop} {V : Vol} {D : Nat → List (List Rec)} {path : CString} {fd : Nat} (rep : Rep s V)
    (consistent : Consistent R dirModes V D) (found : resolve V D path.bytes = some i) (lower : 2 ≤ fd) (upper : fd < 64)
    (free : (V.fds fd).inode = 0) : ∃ fd s', (swiftfs2Open path.bytes oTrunc).run s = some (fd, s') ∧ 0 ≤ fd := by
  obtain ⟨r, s', V', run, -, D', post⟩ := runs_swiftfs2Open consistent path.nul oTrunc (fun none => by cases found.symm.trans none) s rep
  refine ⟨r, s', run, ?_⟩
  cases post with
  | missing none => cases found.symm.trans none
  | notCreated none => cases found.symm.trans none
  | created none => cases found.symm.trans none
  | existing _ rest =>
      cases rest with
      | denied writing => exact absurd (by decide) writing
      | noFd _ _ full => exact absurd free (full fd lower upper)
      | opened => exact Int.natCast_nonneg _

/-- A state in which `filePath` names a file whose last byte has a block. -/
structure WrittenFile (s : FsState Disk) (V : Vol) (D : Nat → List (List Rec)) (i size : Nat) : Prop where
  rep : Rep s V
  consistent : Consistent (Geometry.Reserved (Geometry.ofMb 128)) dirModes V D
  found : resolve V D filePath.bytes = some i
  bound : i < V.inodes
  mode : (V.inode i).isDir = false
  stored : fileBlock V.data (V.inode i) ((size - 1) / 4096) ≠ 0
  free : ∃ fd, 2 ≤ fd ∧ fd < 64 ∧ (V.fds fd).inode = 0

theorem writtenFile_128 (size : Nat) (positive : 0 < size) (small : size ≤ 49153) : ∃ img s₀ s V D i, mkfs 128 = some img ∧
    swiftfs2Mount.run (FsState.boot img fun _ => true) = some (0, s₀) ∧ ReachBoot Admissible s₀ s ∧ WrittenFile s V D i size := by
  obtain ⟨img, s₀, s₁, V, D, i, fd, made, mounted, reach, file⟩ := newFile_128
  obtain ⟨buf, length⟩ : ∃ buf : List UInt8, buf.length = size := ⟨List.replicate size 0x41, List.length_replicate⟩
  have index : (fd : Int).toNat = fd := Int.toNat_natCast fd
  have descriptor : V.fds (fd : Int).toNat = ⟨i, 0, oCreat ||| oRdwr, false⟩ := by rw [index, file.descriptor]
  have mode : (V.inode i).isDir = false := by
    rw [file.empty]
    decide
  have regular : (inodeAt s₁ (s₁.fds (fd : Int).toNat).inode).isDir = false := by
    rw [file.rep.fds, descriptor, file.rep.inode i file.bound, mode]
  have admitted : Admissible s₁ (.write fd buf) := fun _ => regular
  have data : DataCall s₁ (.write fd buf) := fun _ _ => regular
  have opened : fdOpen V.fds fd = true := by
    unfold fdOpen
    rw [descriptor]
    have lower := file.lower
    have upper := file.upper
    simp [file.nonzero]
    omega
  have writable : (V.fds (fd : Int).toNat).flags ≠ oRdonly := by
    rw [descriptor]
    change oCreat ||| oRdwr ≠ oRdonly
    decide
  have inside : (V.fds (fd : Int).toNat).inode < V.inodes := by
    rw [descriptor]
    exact file.bound
  have pos : (V.fds (fd : Int).toNat).pos = 0 := by rw [descriptor]
  have safe := admitted.safe file.rep file.consistent
  obtain ⟨r, s, run⟩ := exec_isSome file.rep file.consistent safe
  obtain ⟨V', D', rep, consistent, post⟩ := exec_post file.rep file.consistent safe run
  have names := data.sameNames file.rep file.consistent post
  obtain ⟨other, lower, upper, different⟩ : ∃ other, 2 ≤ other ∧ other < 64 ∧ other ≠ fd := by
    by_cases two : fd = 2
    · exact ⟨3, by omega, by omega, by omega⟩
    · exact ⟨2, by omega, by omega, by omega⟩
  -- the write is complete, so the last byte has a block
  obtain ⟨d, s₂, complete, whole⟩ : ∃ d s₂, (swiftfs2Write fd buf).run s₁ = some (d, s₂) ∧ d = buf.length := by
    obtain ⟨d, s₂, -, run, -, whole⟩ := runs_swiftfs2Write_room file.consistent.own inside opened writable file.roomy
      (by rw [pos, length]; omega) (by rw [pos, length]; exact Nat.le_trans (by omega) file.avail) s₁ file.rep
    exact ⟨d, s₂, run, whole⟩
  have value : r.value = buf.length := by
    obtain ⟨d', s₃, call, rest⟩ := run_bind_eq_some.mp run
    obtain rfl := (Prod.mk.inj (Option.some.inj (complete.symm.trans call))).1
    cases rest
    exact whole
  have mapped : fileBlock V'.data (V'.inode i) ((size - 1) / 4096) ≠ 0 ∧ (V'.fds other).inode = 0 := by
    obtain ⟨value', bytes, entries⟩ := r
    obtain ⟨-, write, -⟩ := post
    dsimp only at value write
    subst value
    generalize hr : (buf.length : Int) = result at write
    cases write with
    | refused => omega
    | @wrote f W x' done _ here _ wrote =>
        rw [here, descriptor] at wrote ⊢
        have solid : fileBlock W.data x' ((0 + (size - 1)) % 2 ^ 32 / 4096) ≠ 0 := wrote.solid (size - 1) (by omega) (by omega)
        rw [Nat.zero_add, Nat.mod_eq_of_lt (by omega)] at solid
        refine ⟨?_, ?_⟩
        · simp only [Vol.setFd, Vol.setInode, Function.update_self]
          exact solid
        · have fds : W.fds = V.fds := by rw [wrote.ext.frame]
          simp only [Vol.setFd, Vol.setInode]
          rw [index, Function.update_of_ne different, fds]
          exact file.free other different
  refine ⟨img, s₀, s, V', D', i, made, mounted, .call reach admitted run, rep, consistent, ?_, ?_, ?_, mapped.1, other, lower, upper, mapped.2⟩
  · rw [names.resolve_eq file.consistent, file.found]
  · rw [names.inodes]
    exact file.bound
  · rw [names.isDir i file.bound, mode]

theorem storage_released_iff_blocks : ∃ img s₀ s i t fd s', mkfs 128 = some img ∧
    swiftfs2Mount.run (FsState.boot img fun _ => true) = some (0, s₀) ∧ ReachBoot Admissible s₀ s ∧
    (pathWalk filePath.bytes).run s = some (some i, t) ∧ (inodeAt s i).isDir = false ∧
    fileBlock (volOf s).data (inodeAt s i) 2 ≠ 0 ∧ (swiftfs2Open filePath.bytes oTrunc).run s = some (fd, s') ∧
    (Released s s' i ↔ Releasable s i) := by
  obtain ⟨img, s₀, s, V, D, i, made, mounted, reach, file⟩ := writtenFile_128 10000 (by decide) (by decide)
  obtain ⟨t, found, -⟩ := run_pathWalk file.rep file.consistent filePath
  rw [file.found] at found
  obtain ⟨other, lower, upper, free⟩ := file.free
  obtain ⟨fd, s', run, opened⟩ := truncating_open_run file.rep file.consistent file.found lower upper free
  refine ⟨img, s₀, s, i, t, fd, s', made, mounted, reach, found, ?_, ?_, run,
    (storage_released_iff (by decide) made mounted reach found).1 oTrunc fd s' (by decide) run opened⟩
  · rw [file.rep.inode i file.bound, file.mode]
  · have stored := file.stored
    rw [← file.rep.fileBlock file.consistent.own file.bound, ← file.rep.inode i file.bound] at stored
    exact stored

/-- A file of 49153 bytes has one entry in its indirect table; an open with `O_TRUNC` does not give that block back. -/
theorem indirect_entry_lost : ∃ img s₀ s i t fd s', mkfs 128 = some img ∧
    swiftfs2Mount.run (FsState.boot img fun _ => true) = some (0, s₀) ∧ ReachBoot Admissible s₀ s ∧
    (pathWalk filePath.bytes).run s = some (some i, t) ∧ (inodeAt s i).isDir = false ∧
    (swiftfs2Open filePath.bytes oTrunc).run s = some (fd, s') ∧ 0 ≤ fd ∧ ¬Released s s' i := by
  obtain ⟨img, s₀, s, V, D, i, made, mounted, reach, file⟩ := writtenFile_128 49153 (by decide) (by decide)
  obtain ⟨t, found, -⟩ := run_pathWalk file.rep file.consistent filePath
  rw [file.found] at found
  obtain ⟨other, lower, upper, free⟩ := file.free
  obtain ⟨fd, s', run, opened⟩ := truncating_open_run file.rep file.consistent file.found lower upper free
  refine ⟨img, s₀, s, i, t, fd, s', made, mounted, reach, found, ?_, run, opened, fun released => ?_⟩
  · rw [file.rep.inode i file.bound, file.mode]
  · have releasable := (trunc_released file.rep file.consistent found (by decide) run opened).mp released
    have none := releasable.1 12 (by omega) (by omega)
    rw [file.rep.inode i file.bound, file.rep.fileBlock file.consistent.own file.bound] at none
    exact file.stored none

end SwiftBSD.Proof.Fs
