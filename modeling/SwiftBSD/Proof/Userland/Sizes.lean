import SwiftBSD.Proof.Userland.Malloc

namespace SwiftBSD.Proof.Userland
open Lib SwiftBSD.Userland SwiftBSD.Proof.Mm

variable {kernel : Supply} {s t u : Arena} {p v size nmemb : UInt64} {n b : Nat} {live : Live} {regions : List Region}

theorem page_brk (brk : BrkInv s) : s.brk &&& Mm.pageMask = s.brk := by
  have aligned := brk.aligned
  apply UInt64.toNat_inj.mp
  rw [toNat_pageMask]
  omega

section Sbrk
variable (brk : BrkInv s) (pages : v.toNat % 4096 = 0) (positive : 0 < v.toNat)
include brk pages positive

theorem sbrk_up (fits : s.brk.toNat + v.toNat < 2 ^ 64) : ∃ mem, (sbrk kernel v).run s =
    some (if kernel.grants s.grown (s.brk + v) = true then s.brk else failed,
      ⟨mem, s.lists, if kernel.grants s.grown (s.brk + v) = true then s.brk + v else s.brk, s.grown + 1⟩) := by
  have lower := brk.lower
  have upper := brk.upper
  have aligned := brk.aligned
  rw [heapStart_eq] at lower
  rw [maxBrk_eq] at upper
  have sum : (s.brk + v).toNat = s.brk.toNat + v.toNat := by
    rw [UInt64.toNat_add]
    omega
  have nonzero : v ≠ 0 := by
    rintro rfl
    exact absurd positive (by decide)
  have some_ : s.brk + v ≠ 0 := by
    intro zero
    have value := congrArg UInt64.toNat zero
    rw [sum] at value
    change _ = 0 at value
    omega
  have high : ¬s.brk + v < heapStart := by
    rw [UInt64.lt_iff_toNat_lt, sum, heapStart_eq]
    omega
  have round : pageUp (s.brk + v) = s.brk + v := by
    apply UInt64.toNat_inj.mp
    rw [toNat_pageUp (by omega)]
    omega
  have more : s.brk < s.brk + v := by
    rw [UInt64.lt_iff_toNat_lt, sum]
    omega
  have other : s.brk + v ≠ failed := by
    intro same
    have value := congrArg UInt64.toNat same
    change (s.brk + v).toNat = 0xFFFFFFFFFFFFFFFF at value
    omega
  refine ⟨fun x => if s.brk ≤ x ∧ x < s.brk + v then kernel.fresh s.grown x else s.mem x, ?_⟩
  have cur : (scBrk kernel 0).run s = some (s.brk, s) := rfl
  unfold sbrk
  rw [run_bind_some cur, if_neg nonzero]
  have call : (scBrk kernel (s.brk + v)).run s = some (if kernel.grants s.grown (s.brk + v) = true then s.brk + v else failed,
      ⟨fun x => if s.brk ≤ x ∧ x < s.brk + v then kernel.fresh s.grown x else s.mem x, s.lists,
        if kernel.grants s.grown (s.brk + v) = true then s.brk + v else s.brk, s.grown + 1⟩) := by
    unfold scBrk
    rw [run_bind_some (x := get) rfl, if_neg some_, if_neg high]
    dsimp only
    rw [round, page_brk brk, if_pos more]
    rfl
  rw [run_bind_some call]
  by_cases granted : kernel.grants s.grown (s.brk + v) = true
  · rw [if_pos granted, if_pos granted, if_pos granted, if_neg other]
    rfl
  · rw [if_neg granted, if_neg granted, if_neg granted, if_pos rfl]
    rfl

theorem sbrk_around (around : 2 ^ 64 ≤ s.brk.toNat + v.toNat) : (sbrk kernel v).run s =
    if 2 ^ 64 < s.brk.toNat + v.toNat ∧ s.brk.toNat + v.toNat - 2 ^ 64 < heapStart.toNat then some (failed, s)
    else if s.brk.toNat + v.toNat = 2 ^ 64 then some (s.brk, s) else some (s.brk, { s with brk := s.brk + v }) := by
  have lower := brk.lower
  have upper := brk.upper
  have aligned := brk.aligned
  rw [heapStart_eq] at lower
  rw [maxBrk_eq] at upper
  have bound := v.toNat_lt
  have sum : (s.brk + v).toNat = s.brk.toNat + v.toNat - 2 ^ 64 := by
    rw [UInt64.toNat_add]
    omega
  have nonzero : v ≠ 0 := by
    rintro rfl
    exact absurd positive (by decide)
  have good : s.brk ≠ failed := by
    intro same
    have value := congrArg UInt64.toNat same
    change s.brk.toNat = 0xFFFFFFFFFFFFFFFF at value
    omega
  have cur : (scBrk kernel 0).run s = some (s.brk, s) := rfl
  unfold sbrk
  rw [run_bind_some cur, if_neg nonzero]
  by_cases zero : s.brk.toNat + v.toNat = 2 ^ 64
  · have none : s.brk + v = 0 := UInt64.toNat_inj.mp (by rw [sum, zero]; rfl)
    rw [none, run_bind_some cur, if_neg good, if_neg (by omega), if_pos zero]
    rfl
  have some_ : s.brk + v ≠ 0 := by
    intro none
    have value := congrArg UInt64.toNat none
    rw [sum] at value
    change _ = 0 at value
    omega
  by_cases low : s.brk.toNat + v.toNat - 2 ^ 64 < heapStart.toNat
  · have call : (scBrk kernel (s.brk + v)).run s = some (failed, s) := by
      unfold scBrk
      rw [run_bind_some (x := get) rfl, if_neg some_, if_pos (by rw [UInt64.lt_iff_toNat_lt, sum]; exact low)]
      rfl
    rw [run_bind_some call, if_pos rfl, if_pos ⟨by omega, low⟩]
    rfl
  · have other : s.brk + v ≠ failed := by
      intro same
      have value := congrArg UInt64.toNat same
      change (s.brk + v).toNat = 0xFFFFFFFFFFFFFFFF at value
      omega
    have round : pageUp (s.brk + v) = s.brk + v := by
      apply UInt64.toNat_inj.mp
      rw [toNat_pageUp (by omega)]
      omega
    have less : ¬s.brk < s.brk + v := by
      rw [UInt64.lt_iff_toNat_lt, sum]
      omega
    have call : (scBrk kernel (s.brk + v)).run s = some (s.brk + v, { s with brk := s.brk + v }) := by
      unfold scBrk
      rw [run_bind_some (x := get) rfl, if_neg some_, if_neg (by rw [UInt64.lt_iff_toNat_lt, sum]; exact low)]
      dsimp only
      rw [round, page_brk brk, if_neg less]
      rfl
    rw [run_bind_some call, if_neg other, if_neg (fun both => low both.2), if_neg zero]
    rfl

end Sbrk

def PageGranted (kernel : Supply) (s : Arena) : Prop := kernel.grants s.grown (s.brk + 4096) = true

theorem bucket_blocks (small : b < mallocBuckets) : (if 0 < 4096 / bucketSz b then 4096 / bucketSz b else 1) = 4096 / bucketSz b ∧
    (4096 / bucketSz b) * bucketSz b = 4096 ∧ (4096 / bucketSz b).toNat * (bucketSz b).toNat = 4096 ∧ 0 < (4096 / bucketSz b).toNat ∧
    16 ≤ (bucketSz b).toNat := by
  have all : ∀ c : Fin 9, (if 0 < 4096 / bucketSz c then 4096 / bucketSz c else 1) = 4096 / bucketSz c ∧
    (4096 / bucketSz c) * bucketSz c = 4096 ∧ (4096 / bucketSz c).toNat * (bucketSz c).toNat = 4096 ∧ 0 < (4096 / bucketSz c).toNat ∧
    16 ≤ (bucketSz c).toNat := by decide
  exact all ⟨b, small⟩

theorem mallocAddPage_front (brk : BrkInv s) (small : b < mallocBuckets) (run : (mallocAddPage kernel b).run s = some ((), t)) :
    PageGranted kernel s ∧ (t.lists b).toNat + (bucketSz b).toNat = t.brk.toNat ∧ t.brk.toNat = s.brk.toNat + 4096 ∨
      ¬PageGranted kernel s ∧ t.lists = s.lists ∧ (sbrk kernel 4096).run s = some (failed, t) := by
  obtain ⟨needed, whole, product, some_, wide⟩ := bucket_blocks small
  have lower := brk.lower
  have upper := brk.upper
  have aligned := brk.aligned
  rw [heapStart_eq] at lower
  rw [maxBrk_eq] at upper
  have sum : (s.brk + 4096).toNat = s.brk.toNat + 4096 := toNat_add_ofNat (k := 4096) (by omega)
  have pageEnd : pageUp (s.brk + 4096) = s.brk + 4096 := by
    apply UInt64.toNat_inj.mp
    rw [toNat_pageUp (by omega)]
    omega
  have less : s.brk.toInt64 < (s.brk + 4096).toInt64 := by
    rw [Int64.lt_iff_toInt_lt, toInt_toInt64 (by omega), toInt_toInt64 (by omega), sum]
    omega
  have increment : s.brk + 4096 - s.brk = 4096 := by grind
  obtain ⟨mem, grow⟩ := @sbrk_up kernel s 4096 brk (by decide) (by decide) (by change s.brk.toNat + 4096 < _; omega)
  unfold mallocAddPage at run
  dsimp only at run
  rw [needed, run_bind_some sbrk_zero, whole, pageEnd] at run
  obtain ⟨enough, u, extend, loop⟩ := run_bind_eq_some.mp run
  unfold extendTo at extend
  rw [run_bind_some sbrk_zero, if_pos less, increment, run_bind_some grow] at extend
  obtain ⟨rfl, rfl⟩ := pure_run extend
  unfold PageGranted
  by_cases granted : kernel.grants s.grown (s.brk + 4096) = true
  · have good : (s.brk != failed) = true := by
      rw [bne_iff_ne]
      intro same
      have value := congrArg UInt64.toNat same
      change s.brk.toNat = 0xFFFFFFFFFFFFFFFF at value
      omega
    rw [if_pos granted, if_pos granted, if_pos good] at loop
    have done := forRange_run (fun j (v : Arena) => j ≤ (4096 / bucketSz b).toNat → v.brk = s.brk + 4096 ∧
      (0 < j → (v.lists b).toNat = s.brk.toNat + (j - 1) * (bucketSz b).toNat)) ?_ ?_ loop (by omega)
    · obtain ⟨end_, front⟩ := done
      refine .inl ⟨granted, ?_, by rw [end_, sum]⟩
      have last : (4096 / bucketSz b).toNat = (4096 / bucketSz b).toNat - 1 + 1 := by omega
      rw [last, Nat.succ_mul] at product
      rw [front (by omega), end_, sum, Nat.zero_add]
      omega
    · exact fun _ => ⟨rfl, fun none => absurd none (Nat.lt_irrefl 0)⟩
    · intro j v w _ _ before step more
      obtain ⟨end_, -⟩ := before (by omega)
      have offset : j * (bucketSz b).toNat ≤ 4096 := by
        rw [← product]
        exact Nat.mul_le_mul_right _ (by omega)
      have place : (s.brk + UInt64.ofNat j * bucketSz b).toNat = s.brk.toNat + j * (bucketSz b).toNat := by
        have at_ : UInt64.ofNat j * bucketSz b = .ofNat (j * (bucketSz b).toNat) := by rw [UInt64.ofNat_mul, UInt64.ofNat_toNat]
        rw [at_]
        exact toNat_add_ofNat (by omega)
      obtain ⟨lists, brk⟩ : w.lists = Function.update v.lists b (s.brk + .ofNat j * bucketSz b) ∧ w.brk = v.brk := by
        cases step
        exact ⟨rfl, rfl⟩
      refine ⟨brk.trans end_, fun _ => ?_⟩
      rw [lists, Function.update_self, place, Nat.add_sub_cancel]
  · rw [if_neg granted, if_neg granted] at loop
    cases loop
    rw [if_neg granted, if_neg granted] at grow
    exact .inr ⟨granted, rfl, grow⟩

def request (size : UInt64) : UInt64 := if 4096 < size then pageUp size else 4096

/-- Where the block of an allocation ends: a large one goes to the end of the heap, another one as far as its header says. -/
def blockEnd (t : Arena) (size p : UInt64) : Nat :=
  if 4096 < size then t.brk.toNat else (p - headerSize).toNat + (bucketSz (bucketAt t.mem (p - headerSize)).toNat).toNat

/-- A request for `n` bytes that came to `size`, and what was given: the bytes, or 0 for want of memory. -/
structure Sized (kernel : Supply) (s : Arena) (size : UInt64) (n : Nat) (p : UInt64) (t : Arena) : Prop where
  room : p ≠ 0 → p.toNat + n ≤ blockEnd t size p ∧ p.toNat + n ≤ t.brk.toNat
  refused : p = 0 → n = 0 ∨ 2 ^ 64 ≤ n ∨ (sbrk kernel (request size)).run s = some (failed, t)

def Denied (kernel : Supply) (s : Arena) (size : UInt64) : Prop :=
  0 < size.toNat ∧ size.toNat ≤ 4080 ∧ (∃ b, mallocBucket size = some b ∧ s.lists b = 0) ∧ ¬PageGranted kernel s ∨
  4096 < size.toNat ∧ size.toNat ≤ 2 ^ 64 - 4096 ∧
    (s.brk.toNat + (pageUp size).toNat < 2 ^ 64 ∧ ¬kernel.grants s.grown (s.brk + pageUp size) = true ∨
      2 ^ 64 < s.brk.toNat + (pageUp size).toNat ∧ s.brk.toNat + (pageUp size).toNat - 2 ^ 64 < heapStart.toNat)

/-- Sizes for which the allocator has the room. -/
def Served (s : Arena) (size : UInt64) : Prop :=
  16 < size.toNat ∧ size.toNat ≤ 4080 ∨
    4096 < size.toNat ∧ size.toNat ≤ 2 ^ 64 - 4096 ∧ s.brk.toNat + (pageUp size).toNat < 2 ^ 64

/-- When a request for `n` bytes that came to `size` is met. -/
def SizeMet (kernel : Supply) (s : Arena) (size : UInt64) (n : Nat) : Prop :=
  size = 0 ∨ Denied kernel s size ∨ n = size.toNat ∧ Served s size ∨ 2 ^ 64 ≤ n ∧ 4080 < size.toNat ∧ size.toNat ≤ 4096

theorem takeBlock_empty (none : s.lists b = 0) : (takeBlock b).run s = some (0, s) := by
  unfold takeBlock
  rw [run_bind_some (x := get) rfl, if_pos none]
  rfl

theorem takeBlock_front (some_ : s.lists b ≠ 0) (run : (takeBlock b).run s = some (p, t)) : p = s.lists b + headerSize ∧ t.brk = s.brk := by
  unfold takeBlock at run
  rw [run_bind_some (x := get) rfl, if_neg some_] at run
  cases run
  exact ⟨rfl, rfl⟩

theorem malloc_bucket (some_ : size ≠ 0) (small : size.toNat ≤ 4096) (found : mallocBucket size = some b) (run : (malloc kernel size).run s = some (p, t)) :
    s.lists b ≠ 0 ∧ (takeBlock b).run s = some (p, t) ∨
      s.lists b = 0 ∧ ∃ u, (mallocAddPage kernel b).run s = some ((), u) ∧ (takeBlock b).run u = some (p, t) := by
  have fits : ¬4096 < size := fun big => by
    have big := UInt64.lt_iff_toNat_lt.mp big
    change 4096 < size.toNat at big
    omega
  unfold malloc at run
  rw [if_neg some_, if_neg fits, found] at run
  dsimp only at run
  rw [run_bind_some (x := get) rfl] at run
  by_cases empty : s.lists b = 0
  · rw [if_pos empty] at run
    obtain ⟨_, u, page, take⟩ := run_bind_eq_some.mp run
    exact .inr ⟨empty, u, page, take⟩
  · rw [if_neg empty] at run
    exact .inl ⟨empty, run⟩

theorem MallocInv.no_tiny (inv : MallocInv regions live s) : s.lists 0 = 0 := by
  obtain ⟨as, free⟩ := inv.free 0 (by decide)
  cases as with
  | nil => exact free.linked
  | cons a as =>
      have wide := (inv.headers _ (free.blocks a List.mem_cons_self) 0 rfl).wide
      exact absurd wide (by change ¬32 ≤ (bucketSz 0).toNat; decide)

theorem request_small (small : size.toNat ≤ 4096) : request size = 4096 := by
  unfold request
  rw [if_neg]
  intro big
  have big := UInt64.lt_iff_toNat_lt.mp big
  change 4096 < size.toNat at big
  omega

theorem malloc_tiny (inv : MallocInv regions live s) (some_ : 0 < size.toNat) (tiny : size.toNat ≤ 16) (run : (malloc kernel size).run s = some (p, t)) :
    PageGranted kernel s ∧ p ≠ 0 ∧ p = t.brk ∨
      ¬PageGranted kernel s ∧ p = 0 ∧ (sbrk kernel (request size)).run s = some (failed, t) := by
  have nonzero : size ≠ 0 := by
    rintro rfl
    exact absurd some_ (by decide)
  have found : mallocBucket size = some 0 := if_pos (UInt64.le_iff_toNat_le.mpr tiny)
  have none := inv.no_tiny
  rcases malloc_bucket nonzero (by omega) found run with ⟨more, -⟩ | ⟨-, u, page, take⟩
  · exact (more none).elim
  rw [request_small (by omega)]
  rcases mallocAddPage_front inv.brk (by decide) page with ⟨granted, front, more⟩ | ⟨refused, lists, ask⟩
  · have lower := inv.brk.lower
    have upper := inv.brk.upper
    rw [heapStart_eq] at lower
    rw [maxBrk_eq] at upper
    change (u.lists 0).toNat + 16 = _ at front
    have listed : u.lists 0 ≠ 0 := by
      intro zero
      rw [zero] at front
      change 0 + 16 = _ at front
      omega
    obtain ⟨rfl, brk⟩ := takeBlock_front listed take
    have place : (u.lists 0 + headerSize).toNat = (u.lists 0).toNat + 16 := toNat_add_ofNat (k := 16) (by omega)
    refine .inl ⟨granted, ?_, ?_⟩
    · intro zero
      rw [zero] at place
      change 0 = _ at place
      omega
    · apply UInt64.toNat_inj.mp
      rw [place, brk, front]
  · rw [takeBlock_empty (by rw [lists, none])] at take
    cases take
    exact .inr ⟨refused, rfl, ask⟩

theorem mallocBucket_fits (large : 16 < size.toNat) (small : size.toNat ≤ 4080) : ∃ b, mallocBucket size = some b := by
  have more : ¬size ≤ 16 := by
    rw [UInt64.le_iff_toNat_le]
    exact Nat.not_le_of_lt large
  have sum : (size + headerSize).toNat = size.toNat + 16 := toNat_add_ofNat (k := 16) (by omega)
  unfold mallocBucket
  rw [if_neg more]
  by_contra none
  have none := Option.eq_none_iff_forall_ne_some.mpr fun b found => none ⟨b, found⟩
  have last := of_decide_eq_false (firstFrom_none.mp none 8 (by decide) (by decide))
  rw [UInt64.le_iff_toNat_le, sum] at last
  change ¬size.toNat + 16 ≤ 4096 at last
  omega

theorem MallocInv.room (inv : MallocInv regions live t) (member : (p, n) ∈ live) (small : size.toNat ≤ 4096) (few : n ≤ 4096) :
    p.toNat + n ≤ blockEnd t size p ∧ p.toNat + n ≤ t.brk.toNat := by
  have fits : ¬4096 < size := fun big => by
    have big := UInt64.lt_iff_toNat_lt.mp big
    change 4096 < size.toNat at big
    omega
  cases inv.owned _ member with
  | large r region bucket place fits big => omega
  | block r region b bucket place fits positive =>
      have header := inv.headers r region b bucket
      have inside := (inv.inside r region).2.2
      have start := toNat_start inv.toRegionsOk region
      have bound := p.toNat_lt
      have back : p - headerSize = .ofNat r.start := by
        apply UInt64.toNat_inj.mp
        have value := UInt64.toNat_sub p headerSize
        change _ = (2 ^ 64 - 16 + p.toNat) % 2 ^ 64 at value
        omega
      unfold blockEnd
      rw [if_neg ‹_›, back, header.bucket, start, ← header.len]
      omega

theorem malloc_fit (inv : MallocInv regions live s) (large : 16 < size.toNat) (small : size.toNat ≤ 4080)
    (found : mallocBucket size = some b) (run : (malloc kernel size).run s = some (p, t)) :
    (s.lists b ≠ 0 ∨ PageGranted kernel s) ∧ p ≠ 0 ∧ p.toNat + size.toNat ≤ blockEnd t size p ∧ p.toNat + size.toNat ≤ t.brk.toNat ∨
      s.lists b = 0 ∧ ¬PageGranted kernel s ∧ p = 0 ∧ (sbrk kernel (request size)).run s = some (failed, t) := by
  have nonzero : size ≠ 0 := by
    rintro rfl
    exact absurd large (by decide)
  obtain ⟨-, bound, -⟩ := mallocBucket_some large (by omega) found
  obtain ⟨regions', inv'⟩ := (malloc_run inv (.inr (.inl ⟨large, by omega⟩)) run).inv
  have room (some_ : p ≠ 0) : p.toNat + size.toNat ≤ blockEnd t size p ∧ p.toNat + size.toNat ≤ t.brk.toNat := by
    unfold Live.add at inv'
    rw [if_neg some_] at inv'
    exact inv'.room List.mem_cons_self (by omega) (by omega)
  have given {u : Arena} (start : s.brk.toNat ≤ u.brk.toNat) (upper : (u.lists b).toNat + 16 < 2 ^ 64) (some_ : u.lists b ≠ 0)
      (take : (takeBlock b).run u = some (p, t)) : p ≠ 0 := by
    obtain ⟨rfl, -⟩ := takeBlock_front some_ take
    have place : (u.lists b + headerSize).toNat = (u.lists b).toNat + 16 := toNat_add_ofNat (k := 16) upper
    intro zero
    rw [zero] at place
    change 0 = _ at place
    omega
  rcases malloc_bucket nonzero (by omega) found run with ⟨more, take⟩ | ⟨empty, u, page, take⟩
  · obtain ⟨as, free⟩ := inv.free b bound
    obtain ⟨bs, rfl, -⟩ := free.front more
    have block := free.blocks _ List.mem_cons_self
    have inside := (inv.inside _ block).2.2
    have limit := inv.brk.upper
    have wide := (inv.headers _ block b rfl).wide
    rw [maxBrk_eq] at limit
    change (s.lists b).toNat + (bucketSz b).toNat ≤ _ at inside
    change 32 ≤ (bucketSz b).toNat at wide
    have some_ := given (Nat.le_refl _) (by omega) more take
    exact .inl ⟨.inl more, some_, room some_⟩
  · rw [request_small (by omega)]
    rcases mallocAddPage_front inv.brk bound page with ⟨granted, front, more⟩ | ⟨refused, lists, ask⟩
    · have limit := inv.brk.upper
      rw [maxBrk_eq] at limit
      obtain ⟨needed, whole, product, some_, wide⟩ := bucket_blocks bound
      have listed : u.lists b ≠ 0 := by
        have lower := inv.brk.lower
        have widest : ∀ c : Fin 9, (bucketSz c).toNat ≤ 4096 := by decide
        have width := widest ⟨b, bound⟩
        rw [heapStart_eq] at lower
        dsimp only at width
        intro zero
        rw [zero] at front
        change 0 + _ = _ at front
        omega
      have some_ := given (by omega) (by omega) listed take
      exact .inl ⟨.inr granted, some_, room some_⟩
    · rw [takeBlock_empty (by rw [lists, empty])] at take
      cases take
      exact .inr ⟨empty, refused, rfl, ask⟩

theorem mallocLarge_sbrk (run : (mallocLarge kernel size).run s = some (p, t)) :
    ∃ r, (sbrk kernel (pageUp size)).run s = some (r, t) ∧ p = if r = failed then 0 else s.brk := by
  unfold mallocLarge at run
  rw [run_bind_some sbrk_zero] at run
  obtain ⟨r, u, ask, last⟩ := run_bind_eq_some.mp run
  refine ⟨r, ?_⟩
  split at last
  · next refusal =>
      cases last
      exact ⟨ask, (if_pos refusal).symm⟩
  · next granted =>
      cases last
      exact ⟨ask, (if_neg granted).symm⟩

inductive Answered (kernel : Supply) (s : Arena) (size : UInt64) (n : Nat) (p : UInt64) (t : Arena) : Prop
  | refused (none : p = 0) (denied : Denied kernel s size) (ask : (sbrk kernel (request size)).run s = some (failed, t))
  | given (some_ : p ≠ 0) (exact_ : n = size.toNat) (served : Served s size) (paid : ¬Denied kernel s size) (room : p.toNat + n ≤ blockEnd t size p)
      (inside : p.toNat + n ≤ t.brk.toNat)
  | behind (some_ : p ≠ 0) (outside : t.brk.toNat < p.toNat + n) (unmet : ¬SizeMet kernel s size n)
  | gap (none : p = 0) (same : t = s) (large : 4080 < size.toNat) (small : size.toNat ≤ 4096)

theorem not_met (nonzero : size ≠ 0) (denied : ¬Denied kernel s size) (served : ¬(n = size.toNat ∧ Served s size))
    (range : size.toNat ≤ 4080 ∨ 4096 < size.toNat) : ¬SizeMet kernel s size n := by
  rintro (zero | refusal | both | ⟨-, more, less⟩)
  · exact nonzero zero
  · exact denied refusal
  · exact served both
  · omega

section Ranges
variable (inv : MallocInv regions live s) (wraps : n % 2 ^ 64 = size.toNat)
include inv wraps

theorem answered_tiny (some_ : 0 < size.toNat) (tiny : size.toNat ≤ 16) (run : (malloc kernel size).run s = some (p, t)) :
    Answered kernel s size n p t := by
  have nonzero : size ≠ 0 := by
    rintro rfl
    exact absurd some_ (by decide)
  rcases malloc_tiny inv some_ tiny run with ⟨granted, given, end_⟩ | ⟨refused, none, ask⟩
  · refine .behind given (by rw [end_]; omega) (not_met nonzero ?_ ?_ (by omega))
    · rintro (⟨-, -, -, refused⟩ | ⟨more, -⟩)
      · exact refused granted
      · omega
    · rintro ⟨-, ⟨more, -⟩ | ⟨more, -⟩⟩ <;> omega
  · refine .refused none (.inl ⟨some_, by omega, ⟨0, ?_, inv.no_tiny⟩, refused⟩) ask
    exact if_pos (UInt64.le_iff_toNat_le.mpr tiny)

theorem answered_fit (large : 16 < size.toNat) (small : size.toNat ≤ 4080) (run : (malloc kernel size).run s = some (p, t)) :
    Answered kernel s size n p t := by
  have nonzero : size ≠ 0 := by
    rintro rfl
    exact absurd large (by decide)
  obtain ⟨b, found⟩ := mallocBucket_fits large small
  rcases malloc_fit inv large small found run with ⟨source, given, room, inside⟩ | ⟨empty, refused, none, ask⟩
  · have limit := t.brk.toNat_lt
    have paid : ¬Denied kernel s size := by
      rintro (⟨-, -, ⟨c, same, empty⟩, refused⟩ | ⟨more, -⟩)
      · obtain rfl := Option.some.inj (found.symm.trans same)
        exact source.elim (fun more => more empty) refused
      · omega
    by_cases exact_ : n = size.toNat
    · exact .given given exact_ (.inl ⟨large, small⟩) paid (by rwa [exact_]) (by rwa [exact_])
    · exact .behind given (by omega) (not_met nonzero paid (fun both => exact_ both.1) (.inl small))
  · exact .refused none (.inl ⟨by omega, small, ⟨b, found, empty⟩, refused⟩) ask

theorem answered_large (large : 4096 < size.toNat) (run : (malloc kernel size).run s = some (p, t)) :
    Answered kernel s size n p t := by
  have lower := inv.brk.lower
  have upper := inv.brk.upper
  rw [heapStart_eq] at lower
  rw [maxBrk_eq] at upper
  have big : 4096 < size := UInt64.lt_iff_toNat_lt.mpr large
  have nonzero : size ≠ 0 := by
    rintro rfl
    exact absurd large (by decide)
  have asks : request size = pageUp size := if_pos big
  have heap : s.brk ≠ 0 := by
    intro zero
    rw [zero] at lower
    exact absurd lower (by decide)
  have good : s.brk ≠ failed := by
    intro same
    rw [same] at upper
    exact absurd upper (by decide)
  unfold malloc at run
  rw [if_neg nonzero, if_pos big] at run
  obtain ⟨r, ask, result⟩ := mallocLarge_sbrk run
  by_cases last : 2 ^ 64 - 4096 < size.toNat
  · -- the size goes around to 0
    have rounded : pageUp size = 0 := by
      apply UInt64.toNat_inj.mp
      unfold pageUp
      rw [toNat_pageMask, UInt64.toNat_add]
      change 4096 * ((size.toNat + 4095) % 2 ^ 64 / 4096) = 0
      have bound := size.toNat_lt
      omega
    rw [rounded, sbrk_zero] at ask
    cases ask
    rw [if_neg good] at result
    subst result
    refine .behind heap (by omega) (not_met nonzero ?_ ?_ (.inr large))
    · rintro (⟨-, less, -⟩ | ⟨-, less, -⟩) <;> omega
    · rintro ⟨-, ⟨-, less⟩ | ⟨-, less, -⟩⟩ <;> omega
  have rounded := toNat_pageUp (Nat.le_of_not_lt last)
  have pages : (pageUp size).toNat % 4096 = 0 := by omega
  have positive : 0 < (pageUp size).toNat := by omega
  by_cases fits : s.brk.toNat + (pageUp size).toNat < 2 ^ 64
  · obtain ⟨mem, grow⟩ := @sbrk_up kernel s _ inv.brk pages positive fits
    by_cases granted : kernel.grants s.grown (s.brk + pageUp size) = true
    · rw [if_pos granted, if_pos granted] at grow
      obtain ⟨rfl, rfl⟩ := Prod.mk.inj (Option.some.inj (grow.symm.trans ask))
      rw [if_neg good] at result
      subst result
      have sum : (s.brk + pageUp size).toNat = s.brk.toNat + (pageUp size).toNat := by
        rw [UInt64.toNat_add]
        omega
      have paid : ¬Denied kernel s size := by
        rintro (⟨-, less, -⟩ | ⟨-, -, ⟨-, refused⟩ | ⟨around, -⟩⟩)
        · omega
        · exact refused granted
        · omega
      by_cases exact_ : n = size.toNat
      · refine .given heap exact_ (.inr ⟨large, by omega, fits⟩) paid ?_ ?_
        · unfold blockEnd
          rw [if_pos big]
          dsimp only
          omega
        · dsimp only
          omega
      · exact .behind heap (by dsimp only; omega) (not_met nonzero paid (fun both => exact_ both.1) (.inr large))
    · rw [if_neg granted, if_neg granted] at grow
      obtain ⟨rfl, rfl⟩ := Prod.mk.inj (Option.some.inj (grow.symm.trans ask))
      rw [if_pos rfl] at result
      exact .refused result (.inr ⟨large, by omega, .inl ⟨fits, granted⟩⟩) (by rw [asks, grow])
  · have grow := @sbrk_around kernel s _ inv.brk pages positive (Nat.le_of_not_lt fits)
    by_cases below : 2 ^ 64 < s.brk.toNat + (pageUp size).toNat ∧ s.brk.toNat + (pageUp size).toNat - 2 ^ 64 < heapStart.toNat
    · rw [if_pos below] at grow
      obtain ⟨rfl, rfl⟩ := Prod.mk.inj (Option.some.inj (grow.symm.trans ask))
      rw [if_pos rfl] at result
      exact .refused result (.inr ⟨large, by omega, .inr below⟩) (by rw [asks, grow])
    · -- the new break is taken for a question, or for one that gives memory back
      have end_ : r = s.brk ∧ t.brk.toNat ≤ s.brk.toNat := by
        have bound := (pageUp size).toNat_lt
        rw [if_neg below] at grow
        split at grow
        · obtain ⟨rfl, rfl⟩ := Prod.mk.inj (Option.some.inj (grow.symm.trans ask))
          exact ⟨rfl, Nat.le_refl _⟩
        · obtain ⟨rfl, rfl⟩ := Prod.mk.inj (Option.some.inj (grow.symm.trans ask))
          refine ⟨rfl, ?_⟩
          dsimp only
          rw [UInt64.toNat_add]
          omega
      obtain ⟨rfl, end_⟩ := end_
      rw [if_neg good] at result
      subst result
      refine .behind heap (by omega) (not_met nonzero ?_ ?_ (.inr large))
      · rintro (⟨-, less, -⟩ | ⟨-, -, ⟨less, -⟩ | around⟩)
        · omega
        · exact fits less
        · exact below around
      · rintro ⟨-, ⟨-, less⟩ | ⟨-, -, less⟩⟩
        · omega
        · exact fits less

theorem malloc_answered (some_ : 0 < size.toNat) (run : (malloc kernel size).run s = some (p, t)) : Answered kernel s size n p t := by
  by_cases tiny : size.toNat ≤ 16
  · exact answered_tiny inv wraps some_ tiny run
  by_cases fit : size.toNat ≤ 4080
  · exact answered_fit inv wraps (by omega) fit run
  by_cases gap : size.toNat ≤ 4096
  · obtain ⟨none, same⟩ := malloc_refused (.inr ⟨by omega, gap⟩) run
    exact .gap none same (by omega) gap
  · exact answered_large inv wraps (by omega) run

end Ranges

theorem not_sized (some_ : p ≠ 0) (outside : t.brk.toNat < p.toNat + n) : ¬Sized kernel s size n p t := fun sized => by
  have := (sized.room some_).2
  omega

theorem sized_gap_iff (brk : BrkInv s) (some_ : 0 < n) (large : 4080 < size.toNat) (small : size.toNat ≤ 4096) :
    Sized kernel s size n 0 s ↔ SizeMet kernel s size n := by
  refine ⟨fun sized => ?_, fun met => ⟨fun nonzero => (nonzero rfl).elim, fun _ => .inr (.inl ?_)⟩⟩
  · rcases sized.refused rfl with zero | more | ask
    · omega
    · exact .inr (.inr (.inr ⟨more, large, small⟩))
    · -- a request that failed leaves a trace
      have limit := brk.upper
      rw [maxBrk_eq] at limit
      obtain ⟨mem, grow⟩ := @sbrk_up kernel s 4096 brk (by decide) (by decide) (by change s.brk.toNat + 4096 < _; omega)
      rw [request_small small, grow] at ask
      have count := congrArg (Option.map fun r => r.2.grown) ask
      have same : s.grown + 1 = s.grown := Option.some.inj count
      omega
  · rcases met with rfl | (⟨-, less, -⟩ | ⟨more, -⟩) | ⟨-, ⟨-, less⟩ | ⟨more, -⟩⟩ | ⟨more, -⟩
    · exact absurd large (by decide)
    all_goals omega

theorem Answered.sized_iff (answered : Answered kernel s size n p t) (brk : BrkInv s) (some_ : 0 < n) :
    Sized kernel s size n p t ↔ SizeMet kernel s size n := by
  cases answered with
  | refused none denied ask => exact iff_of_true ⟨fun given => (given none).elim, fun _ => .inr (.inr ask)⟩ (.inr (.inl denied))
  | given nonzero exact_ served paid room inside =>
      exact iff_of_true ⟨fun _ => ⟨room, inside⟩, fun none => (nonzero none).elim⟩ (.inr (.inr (.inl ⟨exact_, served⟩)))
  | behind nonzero outside unmet => exact iff_of_false (not_sized nonzero outside) unmet
  | gap none same large small =>
      subst none same
      exact sized_gap_iff brk some_ large small

def Zeroed (t : Arena) (p : UInt64) (n : Nat) : Prop := p ≠ 0 → ∀ i < n, t.mem (p + .ofNat i) = 0

theorem zeroed_run (whole : p.toNat + n ≤ 2 ^ 64) (run : (forRange (fun i => storeBytes (p + .ofNat i) [0]) 0 n).run s = some ((), t)) :
    ∀ i < n, t.mem (p + .ofNat i) = 0 := by
  have done := forRange_run (fun j v => ∀ i < j, v.mem (p + .ofNat i) = 0) (fun i none => absurd none (Nat.not_lt_zero i))
    (fun j v w _ below sofar step => ?_) run
  · rwa [Nat.zero_add] at done
  · intro i before
    cases step
    dsimp only
    have place : (p + .ofNat j).toNat = p.toNat + j := toNat_add_ofNat (by omega)
    have other : (p + .ofNat i).toNat = p.toNat + i := toNat_add_ofNat (by omega)
    by_cases here : i = j
    · unfold putBytes
      rw [here, UInt64.sub_self]
      exact if_pos Nat.one_pos
    · rw [putBytes_other (by rw [List.length_singleton]; omega) (by rw [List.length_singleton]; omega)]
      exact sofar i (by omega)

theorem zero_brk (run : (forRange (fun i => storeBytes (p + .ofNat i) [0]) 0 n).run s = some ((), t)) : t.brk = s.brk :=
  forRange_run (fun _ v => v.brk = s.brk) rfl (fun j v w _ _ same step => by
    cases step
    exact same) run

theorem blockEnd_confined (high : 16 ≤ p.toNat) (whole : p.toNat + n ≤ 2 ^ 64) (confined : Confined s t p n) :
    blockEnd t size p = blockEnd s size p := by
  have back : (p - headerSize).toNat = p.toNat - 16 := by
    have value := UInt64.toNat_sub p headerSize
    change _ = (2 ^ 64 - 16 + p.toNat) % 2 ^ 64 at value
    omega
  have fits : Room (p - headerSize) := by
    have bound := p.toNat_lt
    unfold Room
    omega
  have bucket : bucketAt t.mem (p - headerSize) = bucketAt s.mem (p - headerSize) := bucketAt_congr fits fun x lower upper => by
    by_contra differs
    have := (confined.mem x differs).1
    omega
  unfold blockEnd
  rw [bucket, confined.brk]

theorem malloc_high (inv : MallocInv regions live s) (served : Served s size) (run : (malloc kernel size).run s = some (p, t)) (some_ : p ≠ 0) :
    16 ≤ p.toNat := by
  have fine : SizeFine s size := by
    rcases served with ⟨large, small⟩ | ⟨large, small, fits⟩
    · exact .inr (.inl ⟨large, by omega⟩)
    · exact .inr (.inr ⟨large, small, .inl fits⟩)
  obtain ⟨regions', inv'⟩ := (malloc_run inv fine run).inv
  unfold Live.add at inv'
  rw [if_neg some_] at inv'
  obtain ⟨r, region, -, lower, -⟩ := inv'.place_cases List.mem_cons_self
  have start := (inv'.inside r region).1
  rw [heapStart_eq] at start
  dsimp only at lower
  omega

theorem calloc_sized_iff (inv : MallocInv regions live s) (run : (calloc kernel nmemb size).run s = some (p, t)) :
    Sized kernel s (nmemb * size) (nmemb.toNat * size.toNat) p t ∧ Zeroed t p (nmemb.toNat * size.toNat) ↔
      SizeMet kernel s (nmemb * size) (nmemb.toNat * size.toNat) := by
  have wraps := (UInt64.toNat_mul nmemb size).symm
  unfold calloc at run
  dsimp only at run
  generalize nmemb * size = total at *
  generalize nmemb.toNat * size.toNat = n at *
  obtain ⟨q, u, alloc, rest⟩ := run_bind_eq_some.mp run
  by_cases nothing : total = 0
  · subst nothing
    obtain ⟨rfl, rfl⟩ := malloc_refused (.inl rfl) alloc
    rw [if_neg (not_not.mpr rfl)] at rest
    cases rest
    have whole : n = 0 ∨ 2 ^ 64 ≤ n := by
      change n % 2 ^ 64 = 0 at wraps
      omega
    exact iff_of_true ⟨⟨fun some_ => (some_ rfl).elim, fun _ => whole.elim .inl fun wide => .inr (.inl wide)⟩, fun some_ => (some_ rfl).elim⟩
      (.inl rfl)
  have positive : 0 < total.toNat := by
    by_contra zero
    exact nothing (UInt64.toNat_inj.mp (by change total.toNat = 0; omega))
  have answered := malloc_answered inv wraps positive alloc
  by_cases none : q = 0
  · rw [if_neg (not_not.mpr none)] at rest
    cases rest
    rw [← answered.sized_iff inv.brk (by omega)]
    exact and_iff_left fun some_ => (some_ none).elim
  rw [if_pos none] at rest
  obtain ⟨_, v, zero, last⟩ := run_bind_eq_some.mp rest
  cases last
  have brk := zero_brk zero
  cases answered with
  | refused null => exact (none null).elim
  | gap null => exact (none null).elim
  | behind _ outside unmet => exact iff_of_false (fun both => not_sized none (by rw [brk]; exact outside) both.1) unmet
  | given _ exact_ served paid room inside =>
      have limit := u.brk.toNat_lt
      rw [← exact_] at zero
      have confined := zero_run (by omega) zero
      have same : blockEnd t total p = blockEnd u total p := blockEnd_confined (malloc_high inv served alloc none) (by omega) confined
      refine iff_of_true ⟨⟨fun _ => ?_, fun null => (none null).elim⟩, fun _ => zeroed_run (by omega) zero⟩ (.inr (.inr (.inl ⟨exact_, served⟩)))
      rw [same, brk]
      exact ⟨room, inside⟩

/-- After calls that were fine, `malloc` and `calloc` give the bytes that were asked for, or 0 for want of memory, in these cases: the size is 0;
`sbrk` is asked and fails; it is a size from 17 to 4080, or one from 4097 on with which the break does not go around, and the product has not
gone around either; or the product has gone around to a size between the largest bucket and a page. -/
theorem allocation_sizes_iff (run : MallocRun kernel Fine live s) :
    (∀ size p t, 0 < size → (malloc kernel size).run s = some (p, t) →
      (Sized kernel s size size.toNat p t ↔ SizeMet kernel s size size.toNat)) ∧
    ∀ nmemb size p t, (calloc kernel nmemb size).run s = some (p, t) →
      (Sized kernel s (nmemb * size) (nmemb.toNat * size.toNat) p t ∧ Zeroed t p (nmemb.toNat * size.toNat) ↔
        SizeMet kernel s (nmemb * size) (nmemb.toNat * size.toNat)) := by
  obtain ⟨regions, inv⟩ := mallocRun_inv run
  refine ⟨fun size p t some_ alloc => ?_, fun nmemb size p t alloc => calloc_sized_iff inv alloc⟩
  have positive : 0 < size.toNat := UInt64.lt_iff_toNat_lt.mp some_
  exact (malloc_answered inv (Nat.mod_eq_of_lt size.toNat_lt) positive alloc).sized_iff inv.brk positive

theorem allocation_sizes_iff_hundred : (∃ p t, (malloc plenty 100).run firstArena = some (p, t) ∧ Sized plenty firstArena 100 100 p t) ∧
    ∃ p t, (calloc plenty 10 10).run firstArena = some (p, t) ∧ Sized plenty firstArena 100 100 p t ∧ Zeroed t p 100 := by
  have history : MallocRun plenty Fine [] firstArena := .start
  obtain ⟨first, second⟩ := allocation_sizes_iff history
  have met : SizeMet plenty firstArena 100 100 := .inr (.inr (.inl ⟨rfl, .inl (by decide)⟩))
  constructor
  · have result : ((malloc plenty 100).run firstArena).map (fun r => r.1) = some 0x10000F90 := by decide +kernel
    obtain ⟨⟨p, t⟩, run, -⟩ := Option.map_eq_some_iff.mp result
    exact ⟨p, t, run, (first 100 p t (by decide) run).mpr met⟩
  · have result : ((calloc plenty 10 10).run firstArena).map (fun r => r.1) = some 0x10000F90 := by decide +kernel
    obtain ⟨⟨p, t⟩, run, -⟩ := Option.map_eq_some_iff.mp result
    exact ⟨p, t, run, (second 10 10 p t run).mpr met⟩

/-- 8 bytes have no room; 4090 bytes are refused although there is memory; a size near the end of the address space goes around. -/
theorem small_block_is_header : ∃ p t, (malloc plenty 8).run firstArena = some (p, t) ∧ p ≠ 0 ∧ ¬Sized plenty firstArena 8 8 p t := by
  have result : ((malloc plenty 8).run firstArena).map (fun r => (r.1, r.2.brk)) = some (0x10001000, 0x10001000) := by decide +kernel
  obtain ⟨⟨p, t⟩, run, value⟩ := Option.map_eq_some_iff.mp result
  obtain ⟨first, second⟩ := Prod.mk.inj value
  dsimp only at first second
  subst first
  refine ⟨_, t, run, by decide, not_sized (by decide) ?_⟩
  rw [second]
  decide

end SwiftBSD.Proof.Userland
