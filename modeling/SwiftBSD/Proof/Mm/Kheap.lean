import SwiftBSD.Lib.Blocks
import SwiftBSD.Lib.Moves
import SwiftBSD.Mm.Kheap
import SwiftBSD.Proof.Mm.Entry

namespace SwiftBSD.Proof.Mm.Heap
open Lib SwiftBSD.Mm SwiftBSD.Mm.Heap

variable {pool next size v : UInt64} {s t u : Kheap} {o i n k fuel : Nat} {b : Tile} {bs cs : List Tile}

def poolAt (pool : UInt64) (o : Nat) : UInt64 := pool + .ofNat o

def put (s : Kheap) (i : Nat) (v : UInt64) : Kheap := { s with words := Function.update s.words i v }

theorem put_self : (put s i v).words i = v := Function.update_self _ _ _

theorem put_other (other : k ≠ i) : (put s i v).words k = s.words k := Function.update_of_ne other _ _

theorem put_head : (put s i v).head = s.head := rfl

theorem poolAt_add : poolAt pool o + .ofNat k = poolAt pool (o + k) := by
  unfold poolAt
  rw [UInt64.ofNat_add, UInt64.add_assoc]

theorem toNat_poolAt_sub (inside : o < 2 ^ 64) : (poolAt pool o - pool).toNat = o := by
  have same : poolAt pool o - pool = .ofNat o := by
    unfold poolAt
    grind
  rw [same, UInt64.toNat_ofNat_of_lt' inside]

structure Fits (o : Nat) : Prop where
  aligned : o % 8 = 0
  inside : o + 24 ≤ kheapSize.toNat

theorem kheapSize_eq : kheapSize.toNat = 1048576 := rfl

theorem poolWord_run (aligned : o % 8 = 0) (inside : o < kheapSize.toNat) : (poolWord pool (poolAt pool o)).run s = some (o / 8, s) := by
  have value : (poolAt pool o - pool).toNat = o := toNat_poolAt_sub (by rw [kheapSize_eq] at inside; omega)
  unfold poolWord
  rw [value, if_pos ⟨aligned, inside⟩]
  rfl

theorem loadPool_run (aligned : o % 8 = 0) (inside : o < kheapSize.toNat) :
    (loadPool pool (poolAt pool o)).run s = some (s.words (o / 8), s) := by
  unfold loadPool
  rw [run_bind_some (poolWord_run aligned inside)]
  rfl

theorem storePool_run (aligned : o % 8 = 0) (inside : o < kheapSize.toNat) :
    (storePool pool (poolAt pool o) v).run s = some ((), put s (o / 8) v) := by
  unfold storePool
  rw [run_bind_some (poolWord_run aligned inside)]
  rfl

theorem poolAt_8 : poolAt pool o + 8 = poolAt pool (o + 8) := poolAt_add

theorem poolAt_16 : poolAt pool o + 16 = poolAt pool (o + 16) := poolAt_add

theorem poolAt_header : poolAt pool o + headerSize = poolAt pool (o + 24) := poolAt_add

theorem add_8_div : (o + 8) / 8 = o / 8 + 1 := by omega

theorem add_16_div : (o + 16) / 8 = o / 8 + 2 := by omega

structure HeaderAt (s : Kheap) (o : Nat) (b : Tile) (next : UInt64) : Prop where
  size : s.words (o / 8) = .ofNat b.size
  free : (s.words (o / 8 + 1)).toUInt32 = if b.free = true then 1 else 0
  next : s.words (o / 8 + 2) = next

def flagWord (old : UInt64) (flag : UInt32) : UInt64 := old &&& 0xFFFFFFFF00000000 ||| flag.toUInt64

theorem toUInt32_flagWord (old : UInt64) (flag : UInt32) : (flagWord old flag).toUInt32 = flag := by
  unfold flagWord
  apply UInt32.toBitVec_inj.mp
  apply BitVec.eq_of_getLsbD_eq
  intro i small
  simp [small]

section Header
variable (fits : Fits o)
include fits

theorem setBlockSize_run : (setBlockSize pool (poolAt pool o) v).run s = some ((), put s (o / 8) v) :=
  storePool_run fits.aligned (by have := fits.inside; omega)

theorem setBlockNext_run : (setBlockNext pool (poolAt pool o) next).run s = some ((), put s (o / 8 + 2) next) := by
  have := fits.aligned
  have := fits.inside
  unfold setBlockNext
  rw [poolAt_16, storePool_run (by omega) (by omega), add_16_div]

theorem setBlockFree_run {flag : UInt32} : (setBlockFree pool (poolAt pool o) flag).run s =
    some ((), put s (o / 8 + 1) (flagWord (s.words (o / 8 + 1)) flag)) := by
  have := fits.aligned
  have := fits.inside
  unfold setBlockFree
  rw [poolAt_8, run_bind_some (loadPool_run (by omega) (by omega)), storePool_run (by omega) (by omega), add_8_div]
  rfl

variable (header : HeaderAt s o b next)
include header

theorem blockSize_run : (blockSize pool (poolAt pool o)).run s = some (.ofNat b.size, s) := by
  unfold blockSize
  rw [loadPool_run fits.aligned (by have := fits.inside; omega), header.size]

theorem blockFree_run : (blockFree pool (poolAt pool o)).run s = some (b.free, s) := by
  have := fits.aligned
  have := fits.inside
  unfold blockFree
  rw [poolAt_8, run_bind_some (loadPool_run (by omega) (by omega)), add_8_div, header.free]
  cases b.free <;> rfl

theorem blockNext_run : (blockNext pool (poolAt pool o)).run s = some (next, s) := by
  have := fits.aligned
  have := fits.inside
  unfold blockNext
  rw [poolAt_16, loadPool_run (by omega) (by omega), add_16_div, header.next]

omit fits in
theorem HeaderAt.congr (same : ∀ i, o ≤ 8 * i → 8 * i < o + 24 → t.words i = s.words i) (aligned : o % 8 = 0) :
    HeaderAt t o b next :=
  ⟨by rw [same _ (by omega) (by omega), header.size], by rw [same _ (by omega) (by omega), header.free],
    by rw [same _ (by omega) (by omega), header.next]⟩

omit fits in
theorem HeaderAt.setSize : HeaderAt (put s (o / 8) (.ofNat k)) o ⟨k, b.free⟩ next :=
  ⟨put_self, (congrArg _ (put_other (by omega))).trans header.free, (put_other (by omega)).trans header.next⟩

omit fits in
theorem HeaderAt.setNext : HeaderAt (put s (o / 8 + 2) v) o b v :=
  ⟨(put_other (by omega)).trans header.size, (congrArg _ (put_other (by omega))).trans header.free, put_self⟩

omit fits in
theorem HeaderAt.setFree (free : Bool) :
    HeaderAt (put s (o / 8 + 1) (flagWord (s.words (o / 8 + 1)) (if free = true then 1 else 0))) o ⟨b.size, free⟩ next :=
  ⟨(put_other (by omega)).trans header.size, by rw [put_self, toUInt32_flagWord], (put_other (by omega)).trans header.next⟩

end Header

theorem HeaderAt.fresh {flag : UInt32} (set : flag = 1) :
    HeaderAt (put (put (put s (o / 8) (.ofNat k)) (o / 8 + 1) (flagWord v flag)) (o / 8 + 2) next) o ⟨k, true⟩ next := by
  refine ⟨?_, ?_, put_self⟩
  · rw [put_other (by omega), put_other (by omega), put_self]
  · rw [put_other (by omega), put_self, toUInt32_flagWord, set]
    rfl

def link (pool : UInt64) (o : Nat) : List Tile → UInt64
  | [] => 0
  | _ :: _ => poolAt pool o

/-- The headers from `o` on spell the blocks, each header right behind the bytes of the block before. -/
def Chain (s : Kheap) (pool : UInt64) : Nat → List Tile → Prop
  | _, [] => True
  | o, b :: bs => HeaderAt s o b (link pool (o + 24 + b.size) bs) ∧ Chain s pool (o + 24 + b.size) bs

structure Shape (o : Nat) (bs : List Tile) : Prop where
  aligned : o % 8 = 0
  sizes : ∀ b ∈ bs, 8 ∣ b.size
  whole : o + Tile.span 24 bs = kheapSize.toNat

theorem Shape.fits (shape : Shape o (b :: bs)) : Fits o := by
  have whole := shape.whole
  unfold Tile.span at whole
  exact ⟨shape.aligned, by omega⟩

theorem Shape.tail (shape : Shape o (b :: bs)) : Shape (o + 24 + b.size) bs := by
  have whole := shape.whole
  have aligned := shape.aligned
  obtain ⟨⟨q, first⟩, others⟩ := List.forall_mem_cons.mp shape.sizes
  unfold Tile.span at whole
  exact ⟨by omega, others, by omega⟩

theorem placed_aligned {x : Nat × Tile} (shape : Shape o bs) (member : x ∈ Tile.placed 24 o bs) : x.1 % 8 = 0 := by
  induction bs generalizing o with
  | nil => cases member
  | cons b bs ih =>
      rcases List.mem_cons.mp member with rfl | later
      · exact shape.aligned
      · exact ih shape.tail later

theorem Chain.congr_headers (chain : Chain s pool o bs) (shape : Shape o bs)
    (same : ∀ x ∈ Tile.placed 24 o bs, ∀ i, x.1 ≤ 8 * i → 8 * i < x.1 + 24 → t.words i = s.words i) : Chain t pool o bs := by
  induction bs generalizing o with
  | nil => trivial
  | cons b bs ih =>
      obtain ⟨header, rest⟩ := chain
      obtain ⟨here, later⟩ := List.forall_mem_cons.mp same
      exact ⟨header.congr here shape.aligned, ih rest shape.tail later⟩

theorem Chain.congr (chain : Chain s pool o bs) (shape : Shape o bs) (same : ∀ i, o ≤ 8 * i → t.words i = s.words i) :
    Chain t pool o bs :=
  chain.congr_headers shape fun _ member i lower _ => same i ((Tile.placed_inside member).1.trans lower)

/-- `t` differs from `s` in words of free blocks only. -/
def OnFree (s t : Kheap) (o : Nat) (bs : List Tile) : Prop :=
  ∀ i, t.words i ≠ s.words i → ∃ x ∈ Tile.placed 24 o bs, x.2.free = true ∧ x.1 ≤ 8 * i ∧ 8 * i < x.1 + 24 + x.2.size

theorem OnFree.refl : OnFree s s o bs := fun _ differs => (differs rfl).elim

theorem OnFree.cons (on : OnFree s t (o + 24 + b.size) bs) : OnFree s t o (b :: bs) := by
  intro i differs
  obtain ⟨x, member, inside⟩ := on i differs
  exact ⟨x, List.mem_cons_of_mem _ member, inside⟩

theorem OnFree.before (on : OnFree s t o bs) (small : 8 * i < o) : t.words i = s.words i := by
  by_contra differs
  obtain ⟨x, member, -, lower, -⟩ := on i differs
  have := (Tile.placed_inside member).1
  omega

theorem ofNat_sub_sub (enough : n + k ≤ i) :
    UInt64.ofNat i - .ofNat n - .ofNat k = .ofNat (i - n - k) := by
  have whole : UInt64.ofNat i = .ofNat (i - n - k) + .ofNat k + .ofNat n := by
    rw [← UInt64.ofNat_add, ← UInt64.ofNat_add]
    congr 1
    omega
  rw [whole]
  grind

theorem splitBlock_cut (shape : Shape o (b :: bs)) (header : HeaderAt s o b next) (unit : 8 ∣ n) (large : n + 24 < b.size) :
    ∃ t, (splitBlock pool (poolAt pool o) (.ofNat n)).run s = some ((), t) ∧ t.head = s.head ∧
      HeaderAt t o ⟨n, b.free⟩ (poolAt pool (o + 24 + n)) ∧ HeaderAt t (o + 24 + n) ⟨b.size - n - 24, true⟩ next ∧
      ∀ i, t.words i ≠ s.words i → o ≤ 8 * i ∧ 8 * i < o + 24 + b.size := by
  have aligned := shape.aligned
  have fits := shape.fits
  have whole := shape.whole
  rw [kheapSize_eq] at whole
  unfold Tile.span at whole
  obtain ⟨q, rfl⟩ := unit
  have inside : o + 24 + 8 * q + 24 ≤ kheapSize.toNat := by
    rw [kheapSize_eq]
    omega
  have fits' : Fits (o + 24 + 8 * q) := ⟨by omega, inside⟩
  have size : UInt64.ofNat b.size - .ofNat (8 * q) - headerSize = .ofNat (b.size - 8 * q - 24) :=
    ofNat_sub_sub (k := 24) (by omega)
  have less : UInt64.ofNat (8 * q) + headerSize < .ofNat b.size := by
    have sum : UInt64.ofNat (8 * q) + headerSize = .ofNat (8 * q + 24) := (UInt64.ofNat_add _ _).symm
    rw [sum, UInt64.lt_iff_toNat_lt, UInt64.toNat_ofNat_of_lt' (by change _ < 2 ^ 64; omega),
      UInt64.toNat_ofNat_of_lt' (by change _ < 2 ^ 64; omega)]
    exact large
  have address : poolAt pool o + headerSize + .ofNat (8 * q) = poolAt pool (o + 24 + 8 * q) := by rw [poolAt_header, poolAt_add]
  let s₁ := put s ((o + 24 + 8 * q) / 8) (.ofNat (b.size - 8 * q - 24))
  let s₂ := put s₁ ((o + 24 + 8 * q) / 8 + 1) (flagWord (s₁.words ((o + 24 + 8 * q) / 8 + 1)) 1)
  let s₃ := put s₂ ((o + 24 + 8 * q) / 8 + 2) next
  let s₄ := put s₃ (o / 8) (.ofNat (8 * q))
  let s₅ := put s₄ (o / 8 + 2) (poolAt pool (o + 24 + 8 * q))
  have header₂ : HeaderAt s₂ o b next := header.congr (fun i lower upper => by
    rw [put_other (by omega), put_other (by omega)]) aligned
  have header₃ : HeaderAt s₃ o b next := header₂.congr (fun i lower upper => put_other (by omega)) aligned
  have fresh : HeaderAt s₃ (o + 24 + 8 * q) ⟨b.size - 8 * q - 24, true⟩ next := HeaderAt.fresh rfl
  refine ⟨s₅, ?_, rfl, (header₃.setSize).setNext, ?_, fun i differs => ?_⟩
  · unfold splitBlock
    rw [run_bind_some (blockSize_run fits header), if_pos less]
    dsimp only
    rw [address, size, run_bind_some (setBlockSize_run fits'), run_bind_some (setBlockFree_run fits'),
      run_bind_some (blockNext_run fits header₂), run_bind_some (setBlockNext_run fits'), run_bind_some (setBlockSize_run fits),
      setBlockNext_run fits]
  · refine fresh.congr (fun i lower upper => ?_) (by omega)
    rw [put_other (by omega), put_other (by omega)]
  · by_contra outside
    apply differs
    rw [put_other (by omega), put_other (by omega), put_other (by omega), put_other (by omega), put_other (by omega)]

theorem takeBlock_run (shape : Shape o (b :: bs)) (chain : Chain s pool o (b :: bs)) (unit : 8 ∣ n) (enough : n ≤ b.size) :
    ∃ t, (splitBlock pool (poolAt pool o) (.ofNat n) >>= fun _ => setBlockFree pool (poolAt pool o) 0).run s = some ((), t) ∧
      t.head = s.head ∧ Chain t pool o (Tile.split 24 n b ++ bs) ∧
      ∀ i, t.words i ≠ s.words i → o ≤ 8 * i ∧ 8 * i < o + 24 + b.size := by
  have aligned := shape.aligned
  have fits := shape.fits
  obtain ⟨header, rest⟩ := chain
  unfold Tile.split
  by_cases large : n + 24 < b.size
  · rw [if_pos large]
    obtain ⟨u, run, head, first, second, inside⟩ : ∃ u, (splitBlock pool (poolAt pool o) (.ofNat n)).run s = some ((), u) ∧ _ :=
      splitBlock_cut shape header unit large
    have used := first.setFree false
    obtain ⟨q, rfl⟩ := unit
    have place : o + 24 + 8 * q + 24 + (b.size - 8 * q - 24) = o + 24 + b.size := by omega
    refine ⟨put u (o / 8 + 1) (flagWord (u.words (o / 8 + 1)) 0), by rw [run_bind_some run, setBlockFree_run fits], head,
      ⟨used, ?_, ?_⟩, fun i differs => ?_⟩
    · change HeaderAt _ (o + 24 + 8 * q) _ (link pool (o + 24 + 8 * q + 24 + (b.size - 8 * q - 24)) bs)
      rw [place]
      exact second.congr (fun i lower _ => put_other (by omega)) (by omega)
    · change Chain _ pool (o + 24 + 8 * q + 24 + (b.size - 8 * q - 24)) bs
      rw [place]
      refine rest.congr shape.tail fun i lower => ?_
      rw [put_other (by omega)]
      by_contra differs
      have := (inside i differs).2
      omega
    · by_cases flag : i = o / 8 + 1
      · omega
      · rw [put_other flag] at differs
        exact inside i differs
  · rw [if_neg large]
    have run : (splitBlock pool (poolAt pool o) (.ofNat n)).run s = some ((), s) := by
      have whole := shape.whole
      rw [kheapSize_eq] at whole
      unfold Tile.span at whole
      have more : ¬UInt64.ofNat n + headerSize < .ofNat b.size := by
        have sum : UInt64.ofNat n + headerSize = .ofNat (n + 24) := (UInt64.ofNat_add _ _).symm
        rw [sum, UInt64.lt_iff_toNat_lt, UInt64.toNat_ofNat_of_lt' (by change _ < 2 ^ 64; omega),
          UInt64.toNat_ofNat_of_lt' (by change _ < 2 ^ 64; omega)]
        exact large
      unfold splitBlock
      rw [run_bind_some (blockSize_run fits header), if_neg more]
      rfl
    refine ⟨put s (o / 8 + 1) (flagWord (s.words (o / 8 + 1)) 0), by rw [run_bind_some run, setBlockFree_run fits], rfl,
      ⟨header.setFree false, ?_⟩, fun i differs => ?_⟩
    · exact rest.congr shape.tail fun i lower => put_other (by omega)
    · by_cases flag : i = o / 8 + 1
      · omega
      · exact (differs (put_other flag)).elim

theorem link_firstFit {p : Nat} (found : Tile.firstFit 24 n o bs = some (p, cs)) : link pool o cs = link pool o bs := by
  cases bs with
  | nil => cases found
  | cons b bs =>
      unfold Tile.firstFit at found
      split at found
      · cases found
        obtain ⟨c, cs, same, -⟩ := Tile.split_head 24 n b
        rw [same]
        rfl
      · obtain ⟨⟨q, ds⟩, -, same⟩ := Option.map_eq_some_iff.mp found
        cases same
        rfl

theorem poolAt_ne_zero (positive : 0 < pool.toNat) (end_ : pool.toNat + kheapSize.toNat < 2 ^ 64) (inside : o ≤ kheapSize.toNat) :
    poolAt pool o ≠ 0 := by
  intro zero
  have value := congrArg UInt64.toNat zero
  unfold poolAt at value
  rw [UInt64.toNat_add, UInt64.toNat_ofNat_of_lt' (by rw [kheapSize_eq] at inside; change o < 2 ^ 64; omega)] at value
  change _ = 0 at value
  omega

theorem kmallocFrom_run (positive : 0 < pool.toNat) (end_ : pool.toNat + kheapSize.toNat < 2 ^ 64) (shape : Shape o bs)
    (chain : Chain s pool o bs) (unit : 8 ∣ n) (bound : n < 2 ^ 64) (enough : bs.length < fuel) :
    match Tile.firstFit 24 n o bs with
    | none => (kmallocFrom pool (.ofNat n) fuel (link pool o bs)).run s = some (0, s)
    | some (p, cs) => ∃ t, (kmallocFrom pool (.ofNat n) fuel (link pool o bs)).run s = some (poolAt pool (p + 24), t) ∧
        t.head = s.head ∧ Chain t pool o cs ∧ OnFree s t o bs := by
  induction bs generalizing o fuel with
  | nil =>
      obtain ⟨fuel, rfl⟩ : ∃ f, fuel = f + 1 := ⟨fuel - 1, by change 0 < fuel at enough; omega⟩
      rfl
  | cons b bs ih =>
      rw [List.length_cons] at enough
      obtain ⟨fuel, rfl⟩ : ∃ f, fuel = f + 1 := ⟨fuel - 1, by omega⟩
      have fits := shape.fits
      obtain ⟨header, rest⟩ := id chain
      have whole := shape.whole
      unfold Tile.span at whole
      have room : b.size < 2 ^ 64 := by
        rw [kheapSize_eq] at whole
        omega
      have nonzero : poolAt pool o ≠ 0 := poolAt_ne_zero positive end_ (by omega)
      have compare : UInt64.ofNat n ≤ .ofNat b.size ↔ n ≤ b.size := by
        rw [UInt64.le_iff_toNat_le, UInt64.toNat_ofNat_of_lt' bound, UInt64.toNat_ofNat_of_lt' room]
      have step : (kmallocFrom pool (.ofNat n) (fuel + 1) (link pool o (b :: bs))).run s =
          (if b.free = true ∧ UInt64.ofNat n ≤ .ofNat b.size then do
            splitBlock pool (poolAt pool o) (.ofNat n)
            setBlockFree pool (poolAt pool o) 0
            return poolAt pool o + headerSize
          else do kmallocFrom pool (.ofNat n) fuel (← blockNext pool (poolAt pool o)) : KheapM UInt64).run s := by
        change (kmallocFrom pool (.ofNat n) (fuel + 1) (poolAt pool o)).run s = _
        conv_lhs => unfold kmallocFrom
        rw [if_neg nonzero, run_bind_some (blockFree_run fits header), run_bind_some (blockSize_run fits header)]
      unfold Tile.firstFit
      by_cases good : b.free = true ∧ n ≤ b.size
      · obtain ⟨t, run, head, chain', inside⟩ := takeBlock_run shape chain unit good.2
        rw [if_pos good]
        refine ⟨t, ?_, head, chain', fun i differs => ?_⟩
        · rw [step, if_pos ⟨good.1, compare.mpr good.2⟩, ← poolAt_header]
          rw [← bind_assoc, run_bind_some run]
          rfl
        · exact ⟨(o, b), List.mem_cons_self, good.1, inside i differs⟩
      · rw [if_neg good]
        have bad : ¬(b.free = true ∧ UInt64.ofNat n ≤ .ofNat b.size) := by rwa [compare]
        rw [step, if_neg bad, run_bind_some (blockNext_run fits header)]
        have later := @ih (o + 24 + b.size) fuel shape.tail rest (by omega)
        cases found : Tile.firstFit 24 n (o + 24 + b.size) bs with
        | none =>
            rw [found] at later
            exact later
        | some r =>
            obtain ⟨p, cs⟩ := r
            rw [found] at later
            obtain ⟨t, run, head, chain', on⟩ := later
            refine ⟨t, run, head, ⟨?_, chain'⟩, on.cons⟩
            rw [link_firstFit found]
            exact header.congr (fun i lower upper => on.before (by omega)) shape.aligned

theorem joinNext_joins {a b : Tile} (positive : 0 < pool.toNat) (end_ : pool.toNat + kheapSize.toNat < 2 ^ 64) (shape : Shape o (a :: b :: bs))
    (chain : Chain s pool o (a :: b :: bs)) (free : a.free = true ∧ b.free = true) :
    ∃ t, (joinNext pool (poolAt pool o)).run s = some ((), t) ∧ t.head = s.head ∧
      Chain t pool o (⟨a.size + (24 + b.size), true⟩ :: bs) ∧ ∀ i, t.words i ≠ s.words i → o ≤ 8 * i ∧ 8 * i < o + 24 := by
  have fits := shape.fits
  have fits' := shape.tail.fits
  have aligned := shape.aligned
  have aligned' := shape.tail.aligned
  have inside := fits'.inside
  obtain ⟨header, second, rest⟩ := chain
  change HeaderAt s o a (poolAt pool (o + 24 + a.size)) at header
  have nonzero : poolAt pool (o + 24 + a.size) ≠ 0 := poolAt_ne_zero positive end_ (by omega)
  have place : o + 24 + a.size + 24 + b.size = o + 24 + (a.size + (24 + b.size)) := by omega
  rw [place] at second rest
  have size : UInt64.ofNat a.size + (headerSize + .ofNat b.size) = .ofNat (a.size + (24 + b.size)) := by
    rw [UInt64.ofNat_add, UInt64.ofNat_add]
    rfl
  let s₁ := put s (o / 8) (.ofNat (a.size + (24 + b.size)))
  let s₂ := put s₁ (o / 8 + 2) (link pool (o + 24 + (a.size + (24 + b.size))) bs)
  have second₁ := second.congr (t := s₁) (fun i lower upper => put_other (by omega)) aligned'
  have header₂ : HeaderAt s₂ o ⟨a.size + (24 + b.size), a.free⟩ _ := header.setSize.setNext
  rw [free.1] at header₂
  refine ⟨s₂, ?_, rfl, ⟨header₂, ?_⟩, fun i differs => ?_⟩
  · unfold joinNext
    rw [run_bind_some (blockFree_run fits header), if_pos free.1, run_bind_some (blockNext_run fits header), if_pos nonzero,
      run_bind_some (blockFree_run fits' second), if_pos free.2, run_bind_some (blockSize_run fits header),
      run_bind_some (blockSize_run fits' second), size, run_bind_some (setBlockSize_run fits), run_bind_some (blockNext_run fits' second₁),
      setBlockNext_run fits]
  · rw [← place] at rest ⊢
    refine rest.congr shape.tail.tail fun i lower => ?_
    rw [put_other (by omega), put_other (by omega)]
  · by_contra outside
    apply differs
    rw [put_other (by omega), put_other (by omega)]

theorem joinNext_stays (positive : 0 < pool.toNat) (end_ : pool.toNat + kheapSize.toNat < 2 ^ 64) (shape : Shape o (b :: bs))
    (chain : Chain s pool o (b :: bs)) (apart : ∀ c ∈ bs.head?, ¬(b.free = true ∧ c.free = true)) :
    (joinNext pool (poolAt pool o)).run s = some ((), s) := by
  have fits := shape.fits
  obtain ⟨header, rest⟩ := chain
  unfold joinNext
  rw [run_bind_some (blockFree_run fits header)]
  by_cases free : b.free = true
  · rw [if_pos free, run_bind_some (blockNext_run fits header)]
    cases bs with
    | nil => rfl
    | cons c bs =>
        have fits' := shape.tail.fits
        have inside := fits'.inside
        have nonzero : poolAt pool (o + 24 + b.size) ≠ 0 := poolAt_ne_zero positive end_ (by omega)
        have used : ¬c.free = true := fun also => apart c rfl ⟨free, also⟩
        obtain ⟨second, -⟩ := rest
        change ((if poolAt pool (o + 24 + b.size) ≠ 0 then _ else _ : KheapM Unit)).run s = _
        rw [if_pos nonzero]
        change ((blockFree pool (poolAt pool (o + 24 + b.size)) >>= _ : KheapM Unit)).run s = _
        rw [run_bind_some (blockFree_run fits' second), if_neg used]
        rfl
  · rw [if_neg free]
    rfl

theorem link_merge : link pool o (Tile.merge 24 bs) = link pool o bs := by
  unfold Tile.merge
  split
  · split <;> rfl
  · rfl
  · rfl

theorem joinFrom_step (positive : 0 < pool.toNat) (end_ : pool.toNat + kheapSize.toNat < 2 ^ 64) (shape : Shape o (b :: bs))
    (joined : (joinNext pool (poolAt pool o)).run s = some ((), t)) (header : HeaderAt t o b next) :
    (joinFrom pool (fuel + 1) (poolAt pool o)).run s = (joinFrom pool fuel next).run t := by
  have fits := shape.fits
  have inside := fits.inside
  have nonzero : poolAt pool o ≠ 0 := poolAt_ne_zero positive end_ (by omega)
  conv_lhs => unfold joinFrom
  rw [if_neg nonzero, run_bind_some joined, run_bind_some (blockNext_run fits header)]

theorem joinFrom_run (positive : 0 < pool.toNat) (end_ : pool.toNat + kheapSize.toNat < 2 ^ 64) (shape : Shape o bs)
    (chain : Chain s pool o bs) (enough : bs.length < fuel) :
    ∃ t, (joinFrom pool fuel (link pool o bs)).run s = some ((), t) ∧ t.head = s.head ∧ Chain t pool o (Tile.merge 24 bs) ∧
      OnFree s t o bs := by
  obtain ⟨fuel, rfl⟩ : ∃ f, fuel = f + 1 := ⟨fuel - 1, by omega⟩
  fun_induction Tile.merge 24 bs generalizing o s fuel with
  | case1 a b bs free ih =>
      obtain ⟨u, joined, head, chain', inside⟩ := joinNext_joins positive end_ shape chain free
      have shape' : Shape o (⟨a.size + (24 + b.size), true⟩ :: bs) := by
        obtain ⟨⟨q, first⟩, ⟨r, second⟩, others⟩ : 8 ∣ a.size ∧ 8 ∣ b.size ∧ ∀ c ∈ bs, 8 ∣ c.size := by
          have sizes := shape.sizes
          rwa [List.forall_mem_cons, List.forall_mem_cons] at sizes
        have whole := shape.whole
        unfold Tile.span Tile.span at whole
        refine ⟨shape.aligned, List.forall_mem_cons.mpr ⟨⟨q + (3 + r), by dsimp only; omega⟩, others⟩, ?_⟩
        unfold Tile.span
        dsimp only
        omega
      rw [List.length_cons, List.length_cons] at enough
      obtain ⟨fuel, rfl⟩ : ∃ f, fuel = f + 1 := ⟨fuel - 1, by omega⟩
      obtain ⟨t, run, head', rest, on⟩ := ih shape'.tail chain'.2 fuel (by omega)
      have place : o + 24 + (a.size + (24 + b.size)) = o + 24 + a.size + 24 + b.size := by omega
      refine ⟨t, (joinFrom_step positive end_ shape' joined chain'.1).trans run, head'.trans head, ⟨?_, rest⟩, fun i differs => ?_⟩
      · rw [link_merge]
        exact chain'.1.congr (fun i lower upper => on.before (by dsimp only; omega)) shape.aligned
      · by_cases early : u.words i = s.words i
        · rw [← early] at differs
          dsimp only at on
          rw [place] at on
          exact on.cons.cons i differs
        · have := inside i early
          exact ⟨(o, a), List.mem_cons_self, free.1, this.1, by dsimp only; omega⟩
  | case2 a b bs other ih =>
      have stays : (joinNext pool (poolAt pool o)).run s = some ((), s) :=
        joinNext_stays positive end_ shape chain fun c member => by
          obtain rfl := Option.some.inj member
          exact other
      rw [List.length_cons] at enough
      obtain ⟨fuel, rfl⟩ : ∃ f, fuel = f + 1 := ⟨fuel - 1, by omega⟩
      obtain ⟨t, run, head, rest, on⟩ := ih shape.tail chain.2 fuel (by omega)
      refine ⟨t, (joinFrom_step positive end_ shape stays chain.1).trans run, head, ⟨?_, rest⟩, on.cons⟩
      rw [link_merge]
      exact chain.1.congr (fun i lower upper => on.before (by omega)) shape.aligned
  | case3 b =>
      have stays : (joinNext pool (poolAt pool o)).run s = some ((), s) :=
        joinNext_stays positive end_ shape chain fun c none => by cases none
      obtain ⟨fuel, rfl⟩ : ∃ f, fuel = f + 1 := ⟨fuel - 1, by change 1 < _ at enough; omega⟩
      exact ⟨s, joinFrom_step positive end_ shape stays chain.1, rfl, chain, .refl⟩
  | case4 => exact ⟨s, rfl, rfl, trivial, .refl⟩

theorem link_release {q k : Nat} : link pool k (Tile.release 24 q o bs) = link pool k bs := by
  cases bs with
  | nil => rfl
  | cons b bs =>
      unfold Tile.release
      split <;> rfl

theorem Chain.release {q : Nat} (shape : Shape o bs) (chain : Chain s pool o bs) (member : (q, b) ∈ Tile.placed 24 o bs) :
    Chain (put s (q / 8 + 1) (flagWord (s.words (q / 8 + 1)) 1)) pool o (Tile.release 24 q o bs) := by
  induction bs generalizing o with
  | nil => trivial
  | cons c bs ih =>
      obtain ⟨header, rest⟩ := chain
      have aligned := shape.aligned
      unfold Tile.release
      split
      · next here =>
          subst here
          exact ⟨header.setFree true, rest.congr shape.tail fun i lower => put_other (by omega)⟩
      · next elsewhere =>
          rcases List.mem_cons.mp member with same | later
          · cases same
            exact (elsewhere rfl).elim
          have lower := (Tile.placed_inside later).1
          refine ⟨?_, ih shape.tail rest later⟩
          rw [link_release]
          exact header.congr (fun i _ upper => put_other (by dsimp only at lower; omega)) aligned

structure KheapInv (pool : UInt64) (live : List (UInt64 × UInt64)) (s : Kheap) (bs : List Tile) : Prop where
  head : s.head = link pool 0 bs
  chain : Chain s pool 0 bs
  shape : Shape 0 bs
  owned : ∀ l ∈ live, ∃ x ∈ Tile.placed 24 0 bs, x.2.free = false ∧ l.1 = poolAt pool (x.1 + 24) ∧ l.2.toNat ≤ x.2.size
  distinct : live.Pairwise fun l m => l.1 ≠ m.1

/-- The words of the allocations are as they were. -/
def Untouched (pool : UInt64) (live : List (UInt64 × UInt64)) (s t : Kheap) : Prop :=
  ∀ l ∈ live, ∀ i, (l.1 - pool).toNat ≤ 8 * i → 8 * i < (l.1 - pool).toNat + l.2.toNat → t.words i = s.words i

variable {live : List (UInt64 × UInt64)} {p ptr : UInt64} {l : UInt64 × UInt64}

theorem toNat_roundUp (small : size.toNat ≤ 2 ^ 64 - 8) : (roundUp size).toNat = 8 * ((size.toNat + 7) / 8) := by
  unfold roundUp
  rw [toNat_and_mask (k := 3) rfl, UInt64.toNat_add]
  change 8 * ((size.toNat + 7) % 2 ^ 64 / 8) = _
  omega

theorem Shape.enough (shape : Shape 0 bs) : bs.length < maxBlocks := by
  have long : 24 * bs.length ≤ _ := Tile.length_le_span
  have whole := shape.whole
  unfold maxBlocks
  rw [kheapSize_eq] at whole ⊢
  omega

theorem KheapInv.place (inv : KheapInv pool live s bs) (member : l ∈ live) : ∃ x ∈ Tile.placed 24 0 bs, x.2.free = false ∧
    x.1 + 24 = (l.1 - pool).toNat ∧ l.1 = poolAt pool (x.1 + 24) ∧ l.2.toNat ≤ x.2.size := by
  obtain ⟨x, placed, used, address, enough⟩ := inv.owned l member
  have upper := (Tile.placed_inside placed).2
  have whole := inv.shape.whole
  rw [kheapSize_eq] at whole
  refine ⟨x, placed, used, ?_, address, enough⟩
  rw [address, toNat_poolAt_sub (by omega)]

theorem KheapInv.untouched (inv : KheapInv pool live s bs) (on : OnFree s t 0 bs) : Untouched pool live s t := by
  intro l member i lower upper
  by_contra differs
  obtain ⟨x, placed, free, first, last⟩ := on i differs
  obtain ⟨y, placed', used, place, -, enough⟩ := inv.place member
  rcases Tile.placed_cases placed placed' with rfl | before | behind
  · rw [free] at used
    cases used
  · omega
  · omega

theorem kmalloc_spec (positive : 0 < pool.toNat) (end_ : pool.toNat + kheapSize.toNat < 2 ^ 64) (inv : KheapInv pool live s bs)
    (bound : size.toNat ≤ 2 ^ 64 - 8) : ∃ p t, (kmalloc pool size).run s = some (p, t) ∧ OnFree s t 0 bs ∧
      (p = 0 ∧ t = s ∧ (∀ b ∈ bs, b.free = true → b.size < size.toNat) ∨
        p ≠ 0 ∧ ∃ q cs, Tile.firstFit 24 (8 * ((size.toNat + 7) / 8)) 0 bs = some (q, cs) ∧ p = poolAt pool (q + 24) ∧
          KheapInv pool ((p, size) :: live) t cs) := by
  have value := toNat_roundUp bound
  let n := 8 * ((size.toNat + 7) / 8)
  have small : n < 2 ^ 64 := by
    change 8 * ((size.toNat + 7) / 8) < 2 ^ 64
    rw [← value]
    exact UInt64.toNat_lt _
  have rounded : roundUp size = .ofNat n := by
    apply UInt64.toNat_inj.mp
    rw [value, UInt64.toNat_ofNat_of_lt' small]
  have unit : 8 ∣ n := ⟨_, rfl⟩
  have search := kmallocFrom_run positive end_ inv.shape inv.chain unit small inv.shape.enough
  unfold kmalloc
  rw [run_bind_some (x := get) rfl, rounded, inv.head]
  cases found : Tile.firstFit 24 n 0 bs with
  | none =>
      rw [found] at search
      refine ⟨0, s, search, .refl, .inl ⟨rfl, rfl, fun b member free => ?_⟩⟩
      -- sizes are multiples of 8, so rounding up changes nothing
      have less := Tile.firstFit_none.mp found b member free
      obtain ⟨q, size⟩ := inv.shape.sizes b member
      omega
  | some r =>
      obtain ⟨q, cs⟩ := r
      rw [found] at search
      obtain ⟨t, run, head, chain, on⟩ := search
      obtain ⟨b, taken, used, enough⟩ := Tile.firstFit_used found
      obtain ⟨c, was, free⟩ := Tile.firstFit_free found
      have whole : Tile.span 24 cs = Tile.span 24 bs := Tile.span_firstFit found
      have whole' := inv.shape.whole
      have inside := (Tile.placed_inside was).2
      dsimp only at inside
      refine ⟨_, t, run, on, .inr ⟨poolAt_ne_zero positive end_ (by omega), q, cs, rfl, rfl, ?_, chain, ?_, ?_, ?_⟩⟩
      · rw [head, inv.head, link_firstFit found]
      · exact ⟨rfl, Tile.firstFit_dvd ⟨3, rfl⟩ unit inv.shape.sizes found, by rw [whole]; exact whole'⟩
      · refine List.forall_mem_cons.mpr ⟨⟨(q, b), taken, used, rfl, ?_⟩, fun l member => ?_⟩
        · dsimp only
          omega
        · obtain ⟨x, placed, used, rest⟩ := inv.owned l member
          exact ⟨x, Tile.firstFit_keeps found placed used, used, rest⟩
      · refine List.pairwise_cons.mpr ⟨fun l member same => ?_, inv.distinct⟩
        -- the block was free, and those of the allocations are not
        obtain ⟨x, placed, used, place, -, -⟩ := inv.place member
        rw [kheapSize_eq] at whole'
        dsimp only at same
        rw [← same, toNat_poolAt_sub (by omega)] at place
        rcases Tile.placed_cases placed was with rfl | before | behind
        · rw [free] at used
          cases used
        · dsimp only at before
          omega
        · dsimp only at behind
          omega

theorem kfree_spec (positive : 0 < pool.toNat) (end_ : pool.toNat + kheapSize.toNat < 2 ^ 64) (inv : KheapInv pool live s bs)
    (member : l ∈ live) : ∃ t, (kfree pool l.1).run s = some ((), t) ∧
      KheapInv pool (live.erase l) t (Tile.merge 24 (Tile.release 24 ((l.1 - pool).toNat - 24) 0 bs)) ∧
      Untouched pool (live.erase l) s t := by
  obtain ⟨x, placed, used, place, address, -⟩ := inv.place member
  rw [show (l.1 - pool).toNat - 24 = x.1 by omega]
  have whole := inv.shape.whole
  have inside := (Tile.placed_inside placed).2
  have fits : Fits x.1 := by
    refine ⟨?_, by omega⟩
    exact placed_aligned inv.shape placed
  have nonzero : l.1 ≠ 0 := by
    rw [address]
    exact poolAt_ne_zero positive end_ (by omega)
  have header : l.1 - headerSize = poolAt pool x.1 := by
    rw [address, ← poolAt_header]
    grind
  let u := put s (x.1 / 8 + 1) (flagWord (s.words (x.1 / 8 + 1)) 1)
  have released : Chain u pool 0 (Tile.release 24 x.1 0 bs) := inv.chain.release inv.shape placed
  have shape : Shape 0 (Tile.release 24 x.1 0 bs) :=
    ⟨rfl, Tile.release_dvd inv.shape.sizes, by rw [Tile.span_release]; exact whole⟩
  obtain ⟨t, run, head, chain, on⟩ := joinFrom_run positive end_ shape released shape.enough
  -- what stays allocated is in other blocks
  have others : ∀ m ∈ live.erase l, ∃ y ∈ Tile.placed 24 0 (Tile.release 24 x.1 0 bs), y.2.free = false ∧
      m.1 = poolAt pool (y.1 + 24) ∧ m.2.toNat ≤ y.2.size := by
    intro m stays
    obtain ⟨y, placed', used', -, address', enough⟩ := inv.place (List.mem_of_mem_erase stays)
    refine ⟨y, Tile.release_keeps placed' fun same => ?_, used', address', enough⟩
    have distinct : m.1 ≠ l.1 := by
      have both := (List.perm_cons_erase member).pairwise_iff (R := fun a b : UInt64 × UInt64 => a.1 ≠ b.1) (fun h => h.symm) |>.mp inv.distinct
      exact ((List.pairwise_cons.mp both).1 m stays).symm
    rw [address', address, same] at distinct
    exact distinct rfl
  have inv' : KheapInv pool (live.erase l) u (Tile.release 24 x.1 0 bs) :=
    ⟨by rw [link_release]; exact inv.head, released, shape, others, inv.distinct.sublist List.erase_sublist⟩
  refine ⟨t, ?_, ⟨?_, chain, ?_, fun m stays => ?_, inv'.distinct⟩, fun m stays i lower upper => ?_⟩
  · unfold kfree
    rw [if_neg nonzero, header]
    change ((setBlockFree pool (poolAt pool x.1) 1 >>= fun _ => get >>= fun h => joinFrom pool maxBlocks h.head : KheapM Unit)).run s = _
    rw [run_bind_some (setBlockFree_run fits), run_bind_some (x := get) rfl, put_head, inv.head, ← link_release]
    exact run
  · rw [head, link_merge, link_release]
    exact inv.head
  · exact ⟨rfl, Tile.merge_dvd ⟨3, rfl⟩ shape.sizes, by rw [Tile.span_merge]; exact shape.whole⟩
  · obtain ⟨y, placed', used', rest⟩ := others m stays
    exact ⟨y, Tile.merge_keeps placed' used', used', rest⟩
  · rw [inv'.untouched on m stays i lower upper]
    refine put_other fun same => ?_
    obtain ⟨y, placed', used', place, -, enough⟩ := inv'.place stays
    obtain ⟨z, placed'', used'', place'', -, enough''⟩ := inv.place (List.mem_of_mem_erase stays)
    rcases Tile.placed_cases placed placed'' with rfl | before | behind
    · omega
    · omega
    · omega

theorem kheapInit_run (pool : UInt64) (s : Kheap) : ∃ t, (kheapInit pool).run s = some ((), t) ∧
    KheapInv pool [] t [⟨kheapSize.toNat - 24, true⟩] := by
  have start : pool = poolAt pool 0 := by
    unfold poolAt
    grind
  have fits : Fits 0 := ⟨rfl, by decide⟩
  let s₀ : Kheap := { s with head := pool }
  let s₁ := put s₀ (0 / 8) (.ofNat (kheapSize.toNat - 24))
  refine ⟨put (put s₁ (0 / 8 + 1) (flagWord (s₁.words (0 / 8 + 1)) 1)) (0 / 8 + 2) 0, ?_, ?_, ⟨HeaderAt.fresh rfl, trivial⟩, ⟨rfl, ?_, rfl⟩,
    fun l none => (by cases none), .nil⟩
  · have size : kheapSize - headerSize = .ofNat (kheapSize.toNat - 24) := rfl
    have atHead {q : UInt64} (here : q = poolAt pool 0) : (do
        setBlockSize pool q (.ofNat (kheapSize.toNat - 24))
        setBlockFree pool q 1
        setBlockNext pool q 0 : KheapM Unit).run s₀ = some ((), put (put s₁ (0 / 8 + 1) (flagWord (s₁.words (0 / 8 + 1)) 1)) (0 / 8 + 2) 0) := by
      rw [here, run_bind_some (setBlockSize_run fits), run_bind_some (setBlockFree_run fits), setBlockNext_run fits]
    unfold kheapInit
    rw [run_bind_some (x := modify _) rfl, size]
    exact atHead start
  · exact start
  · exact List.forall_mem_singleton.mpr ⟨131069, rfl⟩

theorem KheapInv.store {size : UInt64} (inv : KheapInv pool live s bs) (owned : (ptr, size) ∈ live) (head : t.head = s.head)
    (inside : ∀ i, t.words i ≠ s.words i → (ptr - pool).toNat ≤ 8 * i ∧ 8 * i < (ptr - pool).toNat + size.toNat) : KheapInv pool live t bs := by
  refine ⟨head.trans inv.head, inv.chain.congr_headers inv.shape fun x placed i lower upper => ?_, inv.shape, inv.owned, inv.distinct⟩
  by_contra differs
  obtain ⟨first, last⟩ := inside i differs
  obtain ⟨y, placed', used, place, -, enough⟩ := inv.place owned
  dsimp only at place enough
  rcases Tile.placed_cases placed placed' with rfl | before | behind
  · omega
  · omega
  · omega

theorem kheapRun_inv (positive : 0 < pool.toNat) (end_ : pool.toNat + kheapSize.toNat < 2 ^ 64) (run : KheapRun pool live s) :
    ∃ bs, KheapInv pool live s bs := by
  induction run with
  | @init s t run =>
      obtain ⟨u, same, inv⟩ := kheapInit_run pool s
      rw [run] at same
      cases same
      exact ⟨_, inv⟩
  | malloc before bound run ih =>
      obtain ⟨bs, inv⟩ := ih
      obtain ⟨p, t, same, -, ⟨zero, stays, -⟩ | ⟨nonzero, q, cs, -, -, inv'⟩⟩ := kmalloc_spec positive end_ inv bound
      · rw [run] at same
        cases same
        rw [if_pos zero, stays]
        exact ⟨bs, inv⟩
      · rw [run] at same
        cases same
        rw [if_neg nonzero]
        exact ⟨cs, inv'⟩
  | free before owned run ih =>
      obtain ⟨bs, inv⟩ := ih
      obtain ⟨t, same, inv', -⟩ := kfree_spec positive end_ inv owned
      rw [run] at same
      cases same
      exact ⟨_, inv'⟩
  | freeNull before run ih =>
      cases run
      exact ih
  | store before owned head inside ih =>
      obtain ⟨bs, inv⟩ := ih
      exact ⟨bs, inv.store owned head inside⟩

/-- What is promised of the heap while the allocations are `live`: its blocks tile the pool, and no block is touched that is in use. -/
structure KheapGood (pool : UInt64) (live : List (UInt64 × UInt64)) (s : Kheap) (bs : List Tile) : Prop where
  head : s.head = link pool 0 bs
  chain : Chain s pool 0 bs
  tiles : Tile.span 24 bs = kheapSize.toNat
  aligned : ∀ l ∈ live, (l.1 - pool).toNat % 8 = 0
  enough : ∀ l ∈ live, ∃ x ∈ Tile.placed 24 0 bs, x.1 + 24 = (l.1 - pool).toNat ∧ l.2.toNat ≤ x.2.size
  headers : ∀ l ∈ live, ∀ x ∈ Tile.placed 24 0 bs, x.1 + 24 ≤ (l.1 - pool).toNat ∨ (l.1 - pool).toNat + l.2.toNat ≤ x.1
  apart : live.Pairwise fun l m => (l.1 - pool).toNat + l.2.toNat ≤ (m.1 - pool).toNat ∨ (m.1 - pool).toNat + m.2.toNat ≤ (l.1 - pool).toNat
  malloc : ∀ size : UInt64, size.toNat ≤ 2 ^ 64 - 8 → ∃ p t, (kmalloc pool size).run s = some (p, t) ∧ Untouched pool live s t ∧
    (p = 0 → ∀ b ∈ bs, b.free = true → b.size < size.toNat)
  free : ∀ l ∈ live, ∃ t, (kfree pool l.1).run s = some ((), t) ∧ Untouched pool (live.erase l) s t
  freeNull : (kfree pool 0).run s = some ((), s)

/-- The pool is an object in memory, so it does not start at 0 and does not go around. -/
theorem kheap_good (positive : 0 < pool.toNat) (end_ : pool.toNat + kheapSize.toNat < 2 ^ 64) (run : KheapRun pool live s) :
    ∃ bs, KheapGood pool live s bs := by
  obtain ⟨bs, inv⟩ := kheapRun_inv positive end_ run
  have whole := inv.shape.whole
  rw [Nat.zero_add] at whole
  refine ⟨bs, inv.head, inv.chain, whole, fun l member => ?_, fun l member => ?_, fun l member x placed => ?_, ?_, fun size bound => ?_,
    fun l member => ?_, rfl⟩
  · obtain ⟨x, placed, -, place, -, -⟩ := inv.place member
    have aligned := placed_aligned inv.shape placed
    omega
  · obtain ⟨x, placed, -, place, -, enough⟩ := inv.place member
    exact ⟨x, placed, place, enough⟩
  · obtain ⟨y, placed', -, place, -, enough⟩ := inv.place member
    rcases Tile.placed_cases placed placed' with rfl | before | behind
    · omega
    · omega
    · omega
  · refine inv.distinct.imp_of_mem fun {l m} first second differ => ?_
    obtain ⟨x, placed, -, place, address, enough⟩ := inv.place first
    obtain ⟨y, placed', -, place', address', enough'⟩ := inv.place second
    rcases Tile.placed_cases placed placed' with rfl | before | behind
    · exact (differ (address.trans address'.symm)).elim
    · omega
    · omega
  · obtain ⟨p, t, run, on, ⟨zero, -, none⟩ | ⟨nonzero, -⟩⟩ := kmalloc_spec positive end_ inv bound
    · exact ⟨p, t, run, inv.untouched on, fun _ => none⟩
    · exact ⟨p, t, run, inv.untouched on, fun zero => (nonzero zero).elim⟩
  · obtain ⟨t, run, -, same⟩ := kfree_spec positive end_ inv member
    exact ⟨t, run, same⟩

theorem kheap_good_first : ∃ p s bs, p ≠ 0 ∧ KheapGood 0x300000 [(p, 100)] s bs := by
  obtain ⟨s, init, inv⟩ := kheapInit_run 0x300000 ⟨fun _ => 0, 0⟩
  have room : ¬∀ b ∈ [Tile.mk (kheapSize.toNat - 24) true], b.free = true → b.size < (100 : UInt64).toNat := by decide
  obtain ⟨p, t, run, -, ⟨-, -, none⟩ | ⟨nonzero, -⟩⟩ := kmalloc_spec (by decide) (by decide) inv (show (100 : UInt64).toNat ≤ 2 ^ 64 - 8 by decide)
  · exact (room none).elim
  have history := KheapRun.malloc (.init init) (by decide) run
  rw [if_neg nonzero] at history
  obtain ⟨bs, good⟩ := kheap_good (by decide) (by decide) history
  exact ⟨p, t, bs, nonzero, good⟩

end SwiftBSD.Proof.Mm.Heap
