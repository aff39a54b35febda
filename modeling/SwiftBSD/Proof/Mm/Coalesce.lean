import SwiftBSD.Lib.Coalesce
import SwiftBSD.Proof.Mm.Kheap

namespace SwiftBSD.Proof.Mm.Heap
open Lib SwiftBSD.Mm SwiftBSD.Mm.Heap

variable {pool size : UInt64} {s t : Kheap} {o : Nat} {bs cs : List Tile} {live : List (UInt64 × UInt64)} {l : UInt64 × UInt64}

/-- The blocks that the list in memory consists of. -/
structure HeapBlocks (pool : UInt64) (s : Kheap) (bs : List Tile) : Prop where
  head : s.head = link pool 0 bs
  chain : Chain s pool 0 bs
  shape : Shape 0 bs

theorem link_injective (positive : 0 < pool.toNat) (end_ : pool.toNat + kheapSize.toNat < 2 ^ 64) (inside : o ≤ kheapSize.toNat)
    (same : link pool o bs = link pool o cs) : bs = [] ↔ cs = [] := by
  have nonzero := poolAt_ne_zero positive end_ inside
  cases bs with
  | nil =>
      cases cs with
      | nil => exact Iff.rfl
      | cons c cs => exact (nonzero same.symm).elim
  | cons b bs =>
      cases cs with
      | nil => exact (nonzero same).elim
      | cons c cs => exact iff_of_false (List.cons_ne_nil _ _) (List.cons_ne_nil _ _)

theorem Chain.unique (positive : 0 < pool.toNat) (end_ : pool.toNat + kheapSize.toNat < 2 ^ 64) (shape : Shape o bs) (shape' : Shape o cs)
    (chain : Chain s pool o bs) (chain' : Chain s pool o cs) (empty : bs = [] ↔ cs = []) : bs = cs := by
  induction bs generalizing o cs with
  | nil => exact (empty.mp rfl).symm
  | cons b bs ih =>
      cases cs with
      | nil => exact empty.mpr rfl
      | cons c cs =>
          obtain ⟨header, rest⟩ := chain
          obtain ⟨header', rest'⟩ := chain'
          have whole := shape.whole
          have whole' := shape'.whole
          rw [kheapSize_eq, Tile.span] at whole whole'
          have sizes : b.size = c.size := by
            have same := congrArg UInt64.toNat (header.size.symm.trans header'.size)
            rwa [UInt64.toNat_ofNat_of_lt' (by change b.size < 2 ^ 64; omega), UInt64.toNat_ofNat_of_lt' (by change c.size < 2 ^ 64; omega)] at same
          have frees : b.free = c.free := by
            have same := header.free.symm.trans header'.free
            cases hb : b.free <;> cases hc : c.free <;> simp_all
          obtain rfl : b = c := by
            cases b
            cases c
            dsimp only at sizes frees
            rw [sizes, frees]
          have links := header.next.symm.trans header'.next
          have next := link_injective positive end_ (by rw [kheapSize_eq]; omega) links
          rw [ih shape.tail shape'.tail rest rest' next]

theorem HeapBlocks.unique (positive : 0 < pool.toNat) (end_ : pool.toNat + kheapSize.toNat < 2 ^ 64) (blocks : HeapBlocks pool s bs)
    (blocks' : HeapBlocks pool s cs) : bs = cs :=
  Chain.unique positive end_ blocks.shape blocks'.shape blocks.chain blocks'.chain
    (link_injective positive end_ (Nat.zero_le _) (blocks.head.symm.trans blocks'.head))

theorem KheapInv.blocks (inv : KheapInv pool live s bs) : HeapBlocks pool s bs := ⟨inv.head, inv.chain, inv.shape⟩

/-- A call of `kfree`: its argument, the heap before and after, and what is allocated afterwards. -/
structure Freed where
  ptr : UInt64
  before : Kheap
  after : Kheap
  live : List (UInt64 × UInt64)

/-- The bytes that `kmalloc` really provides: rounding up makes 0 of a size close to 2^64. -/
def granted (size : UInt64) : UInt64 := if size.toNat ≤ 2 ^ 64 - 8 then size else 0

/-- Calls of `kmalloc` and `kfree`, with the calls of `kfree` on record, and stores to what is allocated. -/
inductive CallRun (pool : UInt64) : List Freed → List (UInt64 × UInt64) → Kheap → Prop
  | init {s t : Kheap} (run : (kheapInit pool).run s = some ((), t)) : CallRun pool [] [] t
  | malloc {frees : List Freed} {live : List (UInt64 × UInt64)} {s t : Kheap} {size p : UInt64} (before : CallRun pool frees live s)
      (run : (kmalloc pool size).run s = some (p, t)) : CallRun pool frees (if p = 0 then live else (p, granted size) :: live) t
  | free {frees : List Freed} {live : List (UInt64 × UInt64)} {s t : Kheap} {ptr size : UInt64} (before : CallRun pool frees live s)
      (owned : (ptr, size) ∈ live) (run : (kfree pool ptr).run s = some ((), t)) :
      CallRun pool (⟨ptr, s, t, live.erase (ptr, size)⟩ :: frees) (live.erase (ptr, size)) t
  | freeNull {frees : List Freed} {live : List (UInt64 × UInt64)} {s t : Kheap} (before : CallRun pool frees live s)
      (run : (kfree pool 0).run s = some ((), t)) : CallRun pool (⟨0, s, t, live⟩ :: frees) live t
  | store {frees : List Freed} {live : List (UInt64 × UInt64)} {s t : Kheap} {ptr size : UInt64} (before : CallRun pool frees live s)
      (owned : (ptr, size) ∈ live) (head : t.head = s.head)
      (inside : ∀ i, t.words i ≠ s.words i → (ptr - pool).toNat ≤ 8 * i ∧ 8 * i < (ptr - pool).toNat + size.toNat) :
      CallRun pool frees live t

/-- No two neighbours of the list are free, and the list is one free block if nothing is allocated. -/
structure Coalesced (pool : UInt64) (f : Freed) : Prop where
  tidy : ∃ bs, HeapBlocks pool f.after bs ∧ Tile.Tidy bs
  empty : f.live = [] → HeapBlocks pool f.after [⟨kheapSize.toNat - 24, true⟩]

/-- The block that is freed lies between two free ones. -/
def Between (pool : UInt64) (f : Freed) : Prop :=
  f.ptr ≠ 0 ∧ ∃ bs, HeapBlocks pool f.before bs ∧ Tile.Flanked 24 ((f.ptr - pool).toNat - 24) 0 bs

structure CallInv (pool : UInt64) (live : List (UInt64 × UInt64)) (s : Kheap) (bs : List Tile) : Prop where
  inv : KheapInv pool live s bs
  given : ∀ x ∈ Tile.placed 24 0 bs, x.2.free = false → ∃ l ∈ live, l.1 = poolAt pool (x.1 + 24)

section Steps
variable (positive : 0 < pool.toNat) (end_ : pool.toNat + kheapSize.toNat < 2 ^ 64)
include positive end_

theorem kmalloc_blocks (c : CallInv pool live s bs) : ∃ p t, (kmalloc pool size).run s = some (p, t) ∧
    ∃ cs, CallInv pool (if p = 0 then live else (p, granted size) :: live) t cs ∧ (Tile.Tidy bs → Tile.Tidy cs) := by
  have same : kmalloc pool size = kmalloc pool (granted size) := by
    unfold granted
    split
    · rfl
    · next large =>
        have upper := size.toNat_lt
        have rounded : roundUp size = roundUp 0 := by
          apply UInt64.toNat_inj.mp
          have zero : (roundUp 0).toNat = 0 := rfl
          rw [zero]
          unfold roundUp
          rw [toNat_and_mask (k := 3) rfl, UInt64.toNat_add]
          change 8 * ((size.toNat + 7) % 2 ^ 64 / 8) = 0
          omega
        unfold kmalloc
        rw [rounded]
  have bound : (granted size).toNat ≤ 2 ^ 64 - 8 := by
    unfold granted
    split
    · next small => exact small
    · decide
  rw [same]
  obtain ⟨p, t, run, -, ⟨zero, rfl, -⟩ | ⟨nonzero, q, cs, found, address, inv'⟩⟩ := kmalloc_spec positive end_ c.inv bound
  · refine ⟨p, t, run, bs, ?_, id⟩
    rw [if_pos zero]
    exact c
  · refine ⟨p, t, run, cs, ?_, fun tidy => (Tile.tidy_firstFit tidy found).1⟩
    rw [if_neg nonzero]
    refine ⟨inv', fun x placed used => ?_⟩
    rcases Tile.firstFit_back found placed used with here | old
    · exact ⟨_, List.mem_cons_self, by rw [here]; exact address⟩
    · obtain ⟨l, member, place⟩ := c.given x old used
      exact ⟨l, List.mem_cons_of_mem _ member, place⟩

theorem kfree_blocks (c : CallInv pool live s bs) (member : l ∈ live) : ∃ t cs, (kfree pool l.1).run s = some ((), t) ∧
    CallInv pool (live.erase l) t cs ∧ (Tile.Tidy bs → (Tile.Tidy cs ↔ ¬ Tile.Flanked 24 ((l.1 - pool).toNat - 24) 0 bs)) := by
  obtain ⟨t, run, inv', -⟩ := kfree_spec positive end_ c.inv member
  obtain ⟨x, placed, used, place, -, -⟩ := c.inv.place member
  have here : (l.1 - pool).toNat - 24 = x.1 := by omega
  rw [here] at inv' ⊢
  refine ⟨t, _, run, ⟨inv', fun y placed' used' => ?_⟩, fun tidy => Tile.tidy_merge_release (by decide) tidy placed⟩
  obtain ⟨old, other⟩ := Tile.release_back (by decide) (Tile.merge_back placed' used') used'
  obtain ⟨m, member', address⟩ := c.given y old used'
  refine ⟨m, (List.mem_erase_of_ne fun same => other ?_).mpr member', address⟩
  have inside := (Tile.placed_inside old).2
  have whole := c.inv.shape.whole
  rw [kheapSize_eq] at whole
  rw [← same, address, toNat_poolAt_sub (by omega)] at place
  omega

omit positive end_ in
theorem Coalesced.of_tidy {f : Freed} (c : CallInv pool f.live f.after bs) (tidy : Tile.Tidy bs) : Coalesced pool f := by
  refine ⟨⟨bs, c.inv.blocks, tidy⟩, fun none => ?_⟩
  have free : ∀ b ∈ bs, b.free = true := by
    intro b member
    obtain ⟨q, placed⟩ := Tile.exists_placed (h := 24) (o := 0) member
    by_contra used
    obtain ⟨l, impossible, -⟩ := c.given _ placed (eq_false_of_ne_true used)
    rw [none] at impossible
    cases impossible
  have whole := c.inv.shape.whole
  rw [Nat.zero_add] at whole
  have some_ : bs ≠ [] := by
    rintro rfl
    cases whole
  have single := Tile.tidy_free tidy free some_ (h := 24)
  rw [whole] at single
  rw [← single]
  exact c.inv.blocks

theorem callRun_inv {frees : List Freed} (run : CallRun pool frees live s) : ∃ bs, CallInv pool live s bs ∧
    ((∀ f ∈ frees, ¬ Between pool f) → Tile.Tidy bs) ∧ ((∀ f ∈ frees, Coalesced pool f) ↔ ∀ f ∈ frees, ¬ Between pool f) := by
  induction run with
  | @init s t run =>
      obtain ⟨u, same, inv⟩ := kheapInit_run pool s
      rw [run] at same
      cases same
      refine ⟨_, ⟨inv, fun x placed used => ?_⟩, fun _ => .singleton _, by simp⟩
      cases List.mem_singleton.mp placed
      cases used
  | malloc before run ih =>
      obtain ⟨bs, c, tidy, all⟩ := ih
      obtain ⟨p, t, same, cs, c', tidy'⟩ := kmalloc_blocks positive end_ c
      rw [run] at same
      cases same
      exact ⟨cs, c', fun apart => tidy' (tidy apart), all⟩
  | @free frees live s t ptr size before owned run ih =>
      obtain ⟨bs, c, tidy, all⟩ := ih
      obtain ⟨u, cs, same, c', joined⟩ := kfree_blocks positive end_ c owned
      rw [run] at same
      cases same
      have nonzero : ptr ≠ 0 := by
        obtain ⟨x, placed, -, -, address, -⟩ := c.inv.place owned
        have inside := (Tile.placed_inside placed).2
        have whole := c.inv.shape.whole
        rintro rfl
        exact poolAt_ne_zero positive end_ (by omega) address.symm
      let f : Freed := ⟨ptr, s, t, live.erase (ptr, size)⟩
      have between : Between pool f ↔ Tile.Flanked 24 ((ptr - pool).toNat - 24) 0 bs := by
        constructor
        · rintro ⟨-, ds, blocks, flanked⟩
          obtain rfl := blocks.unique positive end_ c.inv.blocks
          exact flanked
        · exact fun flanked => ⟨nonzero, bs, c.inv.blocks, flanked⟩
      have coalesced : Coalesced pool f ↔ Tile.Tidy cs := by
        constructor
        · rintro ⟨⟨ds, blocks, tidy⟩, -⟩
          obtain rfl := blocks.unique positive end_ c'.inv.blocks
          exact tidy
        · exact fun tidy => Coalesced.of_tidy (f := f) c' tidy
      refine ⟨cs, c', fun apart => ?_, ?_⟩
      · obtain ⟨last, earlier⟩ := List.forall_mem_cons.mp apart
        exact (joined (tidy earlier)).mpr (between.not.mp last)
      · rw [List.forall_mem_cons, List.forall_mem_cons, all]
        refine and_congr_left fun earlier => ?_
        exact coalesced.trans ((joined (tidy earlier)).trans between.not.symm)
  | @freeNull frees live s t before run ih =>
      obtain ⟨bs, c, tidy, all⟩ := ih
      cases run
      refine ⟨bs, c, fun apart => tidy (List.forall_mem_cons.mp apart).2, ?_⟩
      rw [List.forall_mem_cons, List.forall_mem_cons, all]
      refine and_congr_left fun earlier => iff_of_true ?_ fun between => between.1 rfl
      exact Coalesced.of_tidy (f := ⟨0, s, s, live⟩) c (tidy earlier)
  | store before owned head inside ih =>
      obtain ⟨bs, c, rest⟩ := ih
      exact ⟨bs, ⟨c.inv.store owned head inside, c.given⟩, rest⟩

end Steps

/-- In every run the heap is coalesced after all calls of `kfree` if and only if none of them frees a block between two free ones. -/
theorem coalescing_iff {frees : List Freed} (positive : 0 < pool.toNat) (end_ : pool.toNat + kheapSize.toNat < 2 ^ 64)
    (run : CallRun pool frees live s) : (∀ f ∈ frees, Coalesced pool f) ↔ ∀ f ∈ frees, ¬ Between pool f := by
  obtain ⟨bs, -, -, all⟩ := callRun_inv positive end_ run
  exact all

def smallPool : UInt64 := 0x300000

theorem smallPool_ends : smallPool.toNat + kheapSize.toNat < 2 ^ 64 := by decide

theorem kmalloc_100 {q : Nat} {b : Tile} (inv : KheapInv smallPool live s bs) (member : b ∈ bs) (free : b.free = true) (large : 100 ≤ b.size)
    (found : Tile.firstFit 24 104 0 bs = some (q, cs)) : ∃ p t, (kmalloc smallPool 100).run s = some (p, t) ∧
      p = poolAt smallPool (q + 24) ∧ p ≠ 0 ∧ KheapInv smallPool ((p, 100) :: live) t cs := by
  have size : 8 * (((100 : UInt64).toNat + 7) / 8) = 104 := by decide
  have wanted : (100 : UInt64).toNat = 100 := rfl
  obtain ⟨p, t, run, -, ⟨-, -, none⟩ | ⟨nonzero, q', cs', found', address, inv'⟩⟩ :=
    kmalloc_spec (by decide) smallPool_ends inv (show (100 : UInt64).toNat ≤ 2 ^ 64 - 8 by decide)
  · have small := none b member free
    omega
  · rw [size, found] at found'
    cases found'
    exact ⟨p, t, run, address, nonzero, inv'⟩

theorem twoBlocks_run : ∃ frees s, CallRun smallPool frees [] s ∧ HeapBlocks smallPool s [⟨232, true⟩, ⟨kheapSize.toNat - 280, true⟩] ∧
    ∃ f ∈ frees, f.after = s ∧ f.live = [] := by
  obtain ⟨s₀, init, inv₀⟩ := kheapInit_run smallPool ⟨fun _ => 0, 0⟩
  obtain ⟨p, s₁, first, atP, someP, inv₁⟩ := kmalloc_100 inv₀ List.mem_cons_self rfl (by decide) rfl
  obtain ⟨q, s₂, second, atQ, someQ, inv₂⟩ :=
    kmalloc_100 inv₁ (List.mem_cons_of_mem _ List.mem_cons_self) rfl (show 100 ≤ kheapSize.toNat - 24 - 104 - 24 by decide) rfl
  have run₁ := (CallRun.init init).malloc first
  rw [if_neg someP, show granted 100 = 100 by decide] at run₁
  have run₂ := run₁.malloc second
  rw [if_neg someQ, show granted 100 = 100 by decide] at run₂
  have placeP : (p - smallPool).toNat - 24 = 0 := by
    rw [atP]
    decide
  have placeQ : (q - smallPool).toNat - 24 = 128 := by
    rw [atQ]
    decide
  have other : p ≠ q := by
    rw [atP, atQ]
    decide
  obtain ⟨s₃, free₁, inv₃, -⟩ := kfree_spec (l := (p, 100)) (by decide) smallPool_ends inv₂ (List.mem_cons_of_mem _ List.mem_cons_self)
  have run₃ := run₂.free (List.mem_cons_of_mem _ List.mem_cons_self) free₁
  have left : ([(q, 100), (p, 100)] : List (UInt64 × UInt64)).erase (p, 100) = [(q, 100)] := by
    rw [List.erase_cons_tail (by simpa using fun same => other same.symm), List.erase_cons_head]
  rw [left] at run₃ inv₃
  obtain ⟨s₄, free₂, inv₄, -⟩ := kfree_spec (l := (q, 100)) (by decide) smallPool_ends inv₃ List.mem_cons_self
  have run₄ := run₃.free List.mem_cons_self free₂
  rw [List.erase_cons_head] at run₄ inv₄
  refine ⟨_, s₄, run₄, ?_, _, List.mem_cons_self, rfl, rfl⟩
  have blocks := inv₄.blocks
  dsimp only at blocks
  rw [placeP, placeQ] at blocks
  exact blocks

/-- The two blocks make one, and the rest of the pool stays apart. -/
theorem twoBlocks_apart : ¬ ∀ (pool : UInt64) (frees : List Freed) (live : List (UInt64 × UInt64)) (s : Kheap), 0 < pool.toNat →
    pool.toNat + kheapSize.toNat < 2 ^ 64 → CallRun pool frees live s → ∀ f ∈ frees, Coalesced pool f := by
  intro all
  obtain ⟨frees, s, run, blocks, f, member, rfl, none⟩ := twoBlocks_run
  have single := (all smallPool frees [] f.after (by decide) smallPool_ends run f member).empty none
  have same := blocks.unique (by decide) smallPool_ends single
  cases same

theorem coalescing_iff_two : ∃ frees s, CallRun smallPool frees [] s ∧
    ((∀ f ∈ frees, Coalesced smallPool f) ↔ ∀ f ∈ frees, ¬ Between smallPool f) := by
  obtain ⟨frees, s, run, -⟩ := twoBlocks_run
  exact ⟨frees, s, run, coalescing_iff (by decide) smallPool_ends run⟩

end SwiftBSD.Proof.Mm.Heap
