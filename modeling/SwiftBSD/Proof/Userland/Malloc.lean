import SwiftBSD.Lib.Moves
import SwiftBSD.Proof.Mm.Entry
import SwiftBSD.Userland.Malloc

namespace SwiftBSD.Proof.Userland
open Lib SwiftBSD.Userland SwiftBSD.Proof.Mm

variable {kernel : Supply} {s t u : Arena} {mem mem' : UInt64 → UInt8} {a h p ptr x v size newSize : UInt64} {n k b i : Nat} {live : Live}

theorem sub_lt_iff (whole : a.toNat + n ≤ 2 ^ 64) : (x - a).toNat < n ↔ a.toNat ≤ x.toNat ∧ x.toNat < a.toNat + n := by
  have bound := x.toNat_lt
  have value := UInt64.toNat_sub x a
  omega

theorem toNat_add_ofNat (whole : a.toNat + k < 2 ^ 64) : (a + .ofNat k).toNat = a.toNat + k := by
  rw [UInt64.toNat_add, UInt64.toNat_ofNat_of_lt' (by change k < 2 ^ 64; omega)]
  omega

theorem bytesAt_congr (whole : a.toNat + n ≤ 2 ^ 64) (same : ∀ x, a.toNat ≤ x.toNat → x.toNat < a.toNat + n → mem' x = mem x) :
    bytesAt mem' a n = bytesAt mem a n := by
  unfold bytesAt
  refine List.map_congr_left fun i member => ?_
  have small := List.mem_range.mp member
  have place : (a + .ofNat i).toNat = a.toNat + i := toNat_add_ofNat (by omega)
  exact same _ (by omega) (by omega)

theorem putBytes_other {bytes : List UInt8} (whole : a.toNat + bytes.length ≤ 2 ^ 64)
    (outside : x.toNat < a.toNat ∨ a.toNat + bytes.length ≤ x.toNat) : putBytes mem a bytes x = mem x := by
  unfold putBytes
  rw [if_neg]
  rw [sub_lt_iff whole]
  omega

theorem bytesAt_putBytes {bytes : List UInt8} (whole : a.toNat + bytes.length ≤ 2 ^ 64) :
    bytesAt (putBytes mem a bytes) a bytes.length = bytes := by
  unfold bytesAt
  refine List.ext_getElem (by rw [List.length_map, List.length_range]) fun i lower upper => ?_
  have index : (UInt64.ofNat i).toNat = i := UInt64.toNat_ofNat_of_lt' (by change i < 2 ^ 64; omega)
  have shift : a + .ofNat i - a = UInt64.ofNat i := by grind
  rw [List.getElem_map, List.getElem_range]
  unfold putBytes
  rw [shift, index, if_pos upper, List.getD_eq_getElem _ _ upper]

def Room (h : UInt64) : Prop := h.toNat + 16 ≤ 2 ^ 64

section Header
variable (room : Room h)
include room

theorem toNat_header (small : k < 16) : (h + .ofNat k).toNat = h.toNat + k := by
  unfold Room at room
  exact toNat_add_ofNat (by omega)

theorem header_congr (same : ∀ x, h.toNat ≤ x.toNat → x.toNat < h.toNat + 16 → mem' x = mem x) :
    magicAt mem' h = magicAt mem h ∧ bucketAt mem' h = bucketAt mem h ∧ nextAt mem' h = nextAt mem h := by
  have two : (h + 2).toNat = h.toNat + 2 := toNat_header room (by decide)
  have eight : (h + 8).toNat = h.toNat + 8 := toNat_header room (by decide)
  unfold Room at room
  unfold magicAt bucketAt nextAt
  rw [bytesAt_congr (by omega) fun x lower upper => same x lower (by omega),
    bytesAt_congr (by omega) fun x lower upper => same x (by omega) (by omega),
    bytesAt_congr (by omega) fun x lower upper => same x (by omega) (by omega)]
  exact ⟨rfl, rfl, rfl⟩

theorem magicAt_congr (same : ∀ x, h.toNat ≤ x.toNat → x.toNat < h.toNat + 2 → mem' x = mem x) : magicAt mem' h = magicAt mem h := by
  unfold Room at room
  unfold magicAt
  rw [bytesAt_congr (by omega) fun x lower upper => same x lower upper]

theorem bucketAt_congr (same : ∀ x, h.toNat + 2 ≤ x.toNat → x.toNat < h.toNat + 4 → mem' x = mem x) :
    bucketAt mem' h = bucketAt mem h := by
  have two : (h + 2).toNat = h.toNat + 2 := toNat_header room (by decide)
  unfold Room at room
  unfold bucketAt
  rw [bytesAt_congr (by omega) fun x lower upper => same x (by omega) (by omega)]

theorem nextAt_congr (same : ∀ x, h.toNat + 8 ≤ x.toNat → x.toNat < h.toNat + 16 → mem' x = mem x) : nextAt mem' h = nextAt mem h := by
  have eight : (h + 8).toNat = h.toNat + 8 := toNat_header room (by decide)
  unfold Room at room
  unfold nextAt
  rw [bytesAt_congr (by omega) fun x lower upper => same x (by omega) (by omega)]

theorem magicAt_put (v : UInt16) : magicAt (putBytes mem h (leBytes 2 v.toNat)) h = v := by
  have whole : h.toNat + (leBytes 2 v.toNat).length ≤ 2 ^ 64 := by
    rw [length_leBytes]
    unfold Room at room
    omega
  have bytes := @bytesAt_putBytes mem h _ whole
  rw [length_leBytes] at bytes
  unfold magicAt
  rw [bytes, uint16_leNat_leBytes]

theorem bucketAt_put (v : UInt16) : bucketAt (putBytes mem (h + 2) (leBytes 2 v.toNat)) h = v := by
  have two : (h + 2).toNat = h.toNat + 2 := toNat_header room (by decide)
  have whole : (h + 2).toNat + (leBytes 2 v.toNat).length ≤ 2 ^ 64 := by
    rw [length_leBytes]
    unfold Room at room
    omega
  have bytes := @bytesAt_putBytes mem (h + 2) _ whole
  rw [length_leBytes] at bytes
  unfold bucketAt
  rw [bytes, uint16_leNat_leBytes]

theorem nextAt_put : nextAt (putBytes mem (h + 8) (leBytes 8 v.toNat)) h = v := by
  have eight : (h + 8).toNat = h.toNat + 8 := toNat_header room (by decide)
  have whole : (h + 8).toNat + (leBytes 8 v.toNat).length ≤ 2 ^ 64 := by
    rw [length_leBytes]
    unfold Room at room
    omega
  have bytes := @bytesAt_putBytes mem (h + 8) _ whole
  rw [length_leBytes] at bytes
  unfold nextAt
  rw [bytes, uint64_leNat_leBytes]

theorem putField_other {w val : Nat} (inside : k + w ≤ 16) (small : k < 16) (outside : x.toNat < h.toNat + k ∨ h.toNat + k + w ≤ x.toNat) :
    putBytes mem (h + .ofNat k) (leBytes w val) x = mem x := by
  have place := toNat_header room small
  unfold Room at room
  refine putBytes_other ?_ ?_
  · rw [length_leBytes]
    omega
  · rw [length_leBytes]
    omega

end Header

def maxBrk : Nat := heapStart.toNat + 4096 * Mm.maxPages

theorem maxBrk_eq : maxBrk = 0x30000000 := rfl

/-- The heap ends at a page, and there is a frame for each of its pages. -/
structure BrkInv (s : Arena) : Prop where
  aligned : s.brk.toNat % 4096 = 0
  lower : heapStart.toNat ≤ s.brk.toNat
  upper : s.brk.toNat ≤ maxBrk

structure Grown (s t : Arena) : Prop where
  lists : t.lists = s.lists
  mem : ∀ x, x.toNat < s.brk.toNat → t.mem x = s.mem x

theorem Grown.refl : Grown s s := ⟨rfl, fun _ _ => rfl⟩

theorem toNat_pageUp (small : x.toNat ≤ 2 ^ 64 - 4096) : (pageUp x).toNat = 4096 * ((x.toNat + 4095) / 4096) := by
  unfold pageUp
  rw [toNat_pageMask, UInt64.toNat_add]
  change 4096 * ((x.toNat + 4095) % 2 ^ 64 / 4096) = _
  omega

theorem sbrk_zero : (sbrk kernel 0).run s = some (s.brk, s) := rfl

theorem heapStart_eq : heapStart.toNat = 0x10000000 := rfl

theorem sbrk_run (inv : BrkInv s) (pages : v.toNat % 4096 = 0) (positive : 0 < v.toNat)
    (fine : s.brk.toNat + v.toNat < 2 ^ 64 ∨ 2 ^ 64 < s.brk.toNat + v.toNat ∧ s.brk.toNat + v.toNat - 2 ^ 64 < heapStart.toNat)
    (run : (sbrk kernel v).run s = some (p, t)) :
    Grown s t ∧ BrkInv t ∧ (p = failed ∧ t.brk = s.brk ∨ p = s.brk ∧ p ≠ failed ∧ t.brk.toNat = s.brk.toNat + v.toNat) := by
  have lower := inv.lower
  have upper := inv.upper
  have aligned := inv.aligned
  rw [heapStart_eq] at lower fine
  rw [maxBrk_eq] at upper
  have sum := UInt64.toNat_add s.brk v
  have nonzero : v ≠ 0 := by
    rintro rfl
    exact absurd positive (by decide)
  have some_ : s.brk + v ≠ 0 := by
    intro zero
    have value := congrArg UInt64.toNat zero
    rw [sum] at value
    change _ = 0 at value
    omega
  unfold sbrk at run
  have cur : (scBrk kernel 0).run s = some (s.brk, s) := rfl
  rw [run_bind_some cur, if_neg nonzero] at run
  obtain ⟨new, u, call, last⟩ := run_bind_eq_some.mp run
  unfold scBrk at call
  rw [run_bind_some (x := get) rfl, if_neg some_] at call
  have notFailed : s.brk ≠ failed := by
    intro same
    have value := congrArg UInt64.toNat same
    change s.brk.toNat = 0xFFFFFFFFFFFFFFFF at value
    omega
  by_cases low : s.brk + v < heapStart
  · rw [if_pos low] at call
    cases call
    rw [if_pos rfl] at last
    cases last
    exact ⟨.refl, inv, .inl ⟨rfl, rfl⟩⟩
  rw [if_neg low] at call
  have high : heapStart.toNat ≤ (s.brk + v).toNat := Nat.le_of_not_lt low
  rw [heapStart_eq] at high
  have new_ : (s.brk + v).toNat = s.brk.toNat + v.toNat := by omega
  have round : pageUp (s.brk + v) = s.brk + v := by
    apply UInt64.toNat_inj.mp
    rw [toNat_pageUp (by omega)]
    omega
  have page : s.brk &&& Mm.pageMask = s.brk := by
    apply UInt64.toNat_inj.mp
    rw [toNat_pageMask]
    omega
  have more : s.brk < s.brk + v := by
    rw [UInt64.lt_iff_toNat_lt, new_]
    omega
  have other : s.brk + v ≠ failed := by
    intro same
    have value := congrArg UInt64.toNat same
    change (s.brk + v).toNat = 0xFFFFFFFFFFFFFFFF at value
    omega
  dsimp only at call
  rw [round, page, if_pos more] at call
  have keeps : ∀ x : UInt64, x.toNat < s.brk.toNat → ¬(s.brk ≤ x ∧ x < s.brk + v) := by
    intro x below inside
    have := UInt64.le_iff_toNat_le.mp inside.1
    omega
  by_cases granted : kernel.grants s.grown (s.brk + v) = true
  · rw [if_pos granted, if_pos granted] at call
    cases call
    rw [if_neg other] at last
    cases last
    have bound := kernel.bounded _ _ granted
    refine ⟨⟨rfl, fun x below => if_neg (keeps x below)⟩, ⟨?_, ?_, bound⟩, .inr ⟨rfl, notFailed, new_⟩⟩
    · dsimp only
      omega
    · dsimp only
      rw [heapStart_eq]
      omega
  · rw [if_neg granted, if_neg granted] at call
    cases call
    rw [if_pos rfl] at last
    cases last
    exact ⟨⟨rfl, fun x below => if_neg (keeps x below)⟩, ⟨inv.aligned, inv.lower, inv.upper⟩, .inl ⟨rfl, rfl⟩⟩

structure Region where
  start : Nat
  len : Nat
  bucket : Option Nat

variable {regions : List Region} {r q : Region} {l : UInt64 × Nat} {as : List UInt64}

def Region.before (r q : Region) : Prop := r.start + r.len ≤ q.start

structure HeaderOk (mem : UInt64 → UInt8) (r : Region) (b : Nat) : Prop where
  small : b < mallocBuckets
  len : r.len = (bucketSz b).toNat
  wide : 32 ≤ r.len
  magic : magicAt mem (.ofNat r.start) = magicNumber
  bucket : (bucketAt mem (.ofNat r.start)).toNat = b

structure RegionsOk (s : Arena) (regions : List Region) : Prop where
  brk : BrkInv s
  inside : ∀ r ∈ regions, heapStart.toNat ≤ r.start ∧ 0 < r.len ∧ r.start + r.len ≤ s.brk.toNat
  apart : ∀ r ∈ regions, ∀ q ∈ regions, r = q ∨ r.before q ∨ q.before r
  headers : ∀ r ∈ regions, ∀ b, r.bucket = some b → HeaderOk s.mem r b

def Linked (mem : UInt64 → UInt8) : UInt64 → List UInt64 → Prop
  | p, [] => p = 0
  | p, a :: as => p = a ∧ a ≠ 0 ∧ Linked mem (nextAt mem a) as

def blockAt (a : UInt64) (b : Nat) : Region := ⟨a.toNat, (bucketSz b).toNat, some b⟩

inductive Owned (regions : List Region) : UInt64 × Nat → Prop
  | block {p : UInt64} {n : Nat} (r : Region) (member : r ∈ regions) (b : Nat) (bucket : r.bucket = some b)
      (place : p.toNat = r.start + 16) (fits : n + 16 ≤ r.len) (positive : 0 < n) : Owned regions (p, n)
  | large {p : UInt64} {n : Nat} (r : Region) (member : r ∈ regions) (bucket : r.bucket = none) (place : p.toNat = r.start)
      (fits : n ≤ r.len) (big : 4096 < n) : Owned regions (p, n)

structure FreeOk (s : Arena) (regions : List Region) (live : Live) (b : Nat) (as : List UInt64) : Prop where
  linked : Linked s.mem (s.lists b) as
  nodup : as.Nodup
  blocks : ∀ a ∈ as, blockAt a b ∈ regions
  unused : ∀ a ∈ as, ∀ l ∈ live, l.1.toNat ≠ a.toNat + 16

structure MallocInv (regions : List Region) (live : Live) (s : Arena) : Prop extends RegionsOk s regions where
  free : ∀ b < mallocBuckets, ∃ as, FreeOk s regions live b as
  owned : ∀ l ∈ live, Owned regions l
  distinct : live.Pairwise fun l m => l.1 ≠ m.1

theorem toNat_start (ok : RegionsOk s regions) (member : r ∈ regions) : (UInt64.ofNat r.start).toNat = r.start := by
  have inside := (ok.inside r member).2.2
  have upper := ok.brk.upper
  rw [maxBrk_eq] at upper
  exact UInt64.toNat_ofNat_of_lt' (by change r.start < 2 ^ 64; omega)

theorem room_start (ok : RegionsOk s regions) (member : r ∈ regions) : Room (.ofNat r.start) := by
  have inside := (ok.inside r member).2.2
  have upper := ok.brk.upper
  rw [maxBrk_eq] at upper
  unfold Room
  rw [toNat_start ok member]
  omega

theorem HeaderOk.congr (ok : RegionsOk s regions) (member : r ∈ regions) (header : HeaderOk mem r b)
    (same : ∀ x : UInt64, r.start ≤ x.toNat → x.toNat < r.start + 16 → mem' x = mem x) : HeaderOk mem' r b := by
  have place := toNat_start ok member
  obtain ⟨magic, bucket, -⟩ := header_congr (room_start ok member) fun x lower upper =>
    same x (by omega) (by omega)
  exact ⟨header.small, header.len, header.wide, magic.trans header.magic, (congrArg _ bucket).trans header.bucket⟩

theorem Linked.congr (linked : Linked mem p as) (same : ∀ a ∈ as, nextAt mem' a = nextAt mem a) : Linked mem' p as := by
  induction as generalizing p with
  | nil => exact linked
  | cons a as ih =>
      obtain ⟨here, others⟩ := List.forall_mem_cons.mp same
      refine ⟨linked.1, linked.2.1, ?_⟩
      rw [here]
      exact ih linked.2.2 others

theorem ofNat_blockAt : UInt64.ofNat (blockAt a b).start = a := UInt64.ofNat_toNat

theorem MallocInv.stores (inv : MallocInv regions live s) (lists : t.lists = s.lists) (brk : BrkInv t) (grows : s.brk.toNat ≤ t.brk.toNat)
    (same : ∀ r ∈ regions, ∀ b, r.bucket = some b → ∀ x : UInt64, r.start ≤ x.toNat → x.toNat < r.start + 16 → t.mem x = s.mem x) :
    MallocInv regions live t := by
  refine ⟨⟨brk, fun r member => ?_, inv.apart, fun r member b bucket => ?_⟩, fun b small => ?_, inv.owned, inv.distinct⟩
  · obtain ⟨lower, positive, upper⟩ := inv.inside r member
    exact ⟨lower, positive, upper.trans grows⟩
  · exact (inv.headers r member b bucket).congr inv.toRegionsOk member (same r member b bucket)
  · obtain ⟨as, free⟩ := inv.free b small
    refine ⟨as, ?_, free.nodup, free.blocks, free.unused⟩
    rw [lists]
    refine free.linked.congr fun a member => ?_
    have block := free.blocks a member
    have room := room_start inv.toRegionsOk block
    rw [ofNat_blockAt] at room
    exact (header_congr room fun x lower upper => same _ block b rfl x lower upper).2.2

theorem MallocInv.place (inv : MallocInv regions live s) (member : l ∈ live) : ∃ r ∈ regions, 0 < l.2 ∧ l.1.toNat + l.2 ≤ r.start + r.len ∧
    (∀ b, r.bucket = some b → l.1.toNat = r.start + 16) ∧ (r.bucket = none → l.1.toNat = r.start ∧ 4096 < l.2) := by
  cases inv.owned l member with
  | block r region b bucket place fits positive =>
      refine ⟨r, region, positive, by dsimp only; omega, fun _ _ => place, fun none => ?_⟩
      rw [bucket] at none
      cases none
  | large r region bucket place fits big =>
      refine ⟨r, region, by dsimp only; omega, by dsimp only; omega, fun b some_ => ?_, fun _ => ⟨place, big⟩⟩
      rw [bucket] at some_
      cases some_

theorem MallocInv.place_cases (inv : MallocInv regions live s) (member : l ∈ live) : ∃ r ∈ regions, 0 < l.2 ∧ r.start ≤ l.1.toNat ∧
    l.1.toNat + l.2 ≤ r.start + r.len ∧ (∀ b, r.bucket = some b → l.1.toNat = r.start + 16) ∧ (r.bucket = none → l.1.toNat = r.start ∧ 4096 < l.2) := by
  obtain ⟨r, region, positive, upper, block, large⟩ := inv.place member
  refine ⟨r, region, positive, ?_, upper, block, large⟩
  cases bucket : r.bucket with
  | none => exact (large bucket).1.ge
  | some b =>
      have := block b bucket
      omega

theorem MallocInv.off_headers (inv : MallocInv regions live s) (member : l ∈ live) (region : r ∈ regions) (bucket : r.bucket = some b) :
    r.start + 16 ≤ l.1.toNat ∨ l.1.toNat + l.2 ≤ r.start := by
  obtain ⟨q, region', positive, lower, upper, block, large⟩ := inv.place_cases member
  have wide := (inv.headers r region b bucket).wide
  rcases inv.apart r region q region' with rfl | before | behind
  · have := block b bucket
    omega
  · unfold Region.before at before
    omega
  · unfold Region.before at behind
    omega

theorem MallocInv.mono {live' : Live} (inv : MallocInv regions live s) (fewer : live'.Sublist live) : MallocInv regions live' s := by
  refine ⟨inv.toRegionsOk, fun b small => ?_, fun l member => inv.owned l (fewer.subset member), inv.distinct.sublist fewer⟩
  obtain ⟨as, free⟩ := inv.free b small
  exact ⟨as, free.linked, free.nodup, free.blocks, fun a member l stays => free.unused a member l (fewer.subset stays)⟩

theorem MallocInv.storeTo (inv : MallocInv regions live s) (member : l ∈ live) (lists : t.lists = s.lists) (brk : t.brk = s.brk)
    (inside : ∀ x, t.mem x ≠ s.mem x → l.1.toNat ≤ x.toNat ∧ x.toNat < l.1.toNat + l.2) : MallocInv regions live t := by
  have brkInv := inv.brk
  refine inv.stores lists ⟨by rw [brk]; exact brkInv.aligned, by rw [brk]; exact brkInv.lower, by rw [brk]; exact brkInv.upper⟩
    (by rw [brk]) fun r region b bucket x lower upper => ?_
  by_contra differs
  have := inside x differs
  have := inv.off_headers member region bucket
  omega

/-- `t` differs from `s` in the header at `h` only. -/
def OnlyHeader (s t : Arena) (h : UInt64) : Prop := ∀ x : UInt64, x.toNat < h.toNat ∨ h.toNat + 16 ≤ x.toNat → t.mem x = s.mem x

section Write
variable (ok : RegionsOk s regions)
include ok

theorem blockAt_eq {c : Nat} (first : blockAt a b ∈ regions) (second : blockAt a c ∈ regions) : b = c := by
  rcases ok.apart _ first _ second with same | before | behind
  · exact Option.some.inj (congrArg Region.bucket same)
  · have := (ok.inside _ first).2.1
    unfold Region.before at before
    change a.toNat + _ ≤ a.toNat at before
    omega
  · have := (ok.inside _ second).2.1
    unfold Region.before at behind
    change a.toNat + _ ≤ a.toNat at behind
    omega

theorem OnlyHeader.other (only : OnlyHeader s t h) (block : blockAt h b ∈ regions) (member : r ∈ regions) {c : Nat} (bucket : r.bucket = some c)
    (differs : r.start ≠ h.toNat) (x : UInt64) (lower : r.start ≤ x.toNat) (upper : x.toNat < r.start + 16) : t.mem x = s.mem x := by
  have wide := (ok.headers _ block b rfl).wide
  have wide' := (ok.headers r member c bucket).wide
  change 32 ≤ (bucketSz b).toNat at wide
  rcases ok.apart _ block r member with same | before | behind
  · exact (differs (congrArg Region.start same).symm).elim
  · unfold Region.before at before
    change h.toNat + (bucketSz b).toNat ≤ r.start at before
    exact only x (by omega)
  · unfold Region.before at behind
    change r.start + r.len ≤ h.toNat at behind
    exact only x (by omega)

theorem OnlyHeader.next (only : OnlyHeader s t h) (block : blockAt h b ∈ regions) {c : Nat} (other : blockAt a c ∈ regions) (differs : a ≠ h) :
    nextAt t.mem a = nextAt s.mem a := by
  have room := room_start ok other
  rw [ofNat_blockAt] at room
  refine (header_congr room fun x lower upper => ?_).2.2
  exact only.other ok block other rfl (fun same => differs (UInt64.toNat_inj.mp same)) x lower upper

theorem OnlyHeader.regionsOk (only : OnlyHeader s t h) (block : blockAt h b ∈ regions) (brk : t.brk = s.brk)
    (magic : magicAt t.mem h = magicNumber) (bucket : bucketAt t.mem h = bucketAt s.mem h) : RegionsOk t regions := by
  refine ⟨⟨?_, ?_, ?_⟩, ?_, ok.apart, fun r member c some_ => ?_⟩
  · rw [brk]
    exact ok.brk.aligned
  · rw [brk]
    exact ok.brk.lower
  · rw [brk]
    exact ok.brk.upper
  · rw [brk]
    exact ok.inside
  · have header := ok.headers r member c some_
    by_cases here : r.start = h.toNat
    · have place : UInt64.ofNat r.start = h := by
        rw [here]
        exact UInt64.ofNat_toNat
      refine ⟨header.small, header.len, header.wide, ?_, ?_⟩
      · rw [place]
        exact magic
      · rw [place, bucket, ← place]
        exact header.bucket
    · exact header.congr ok member fun x lower upper => only.other ok block member some_ here x lower upper

end Write

theorem FreeOk.front (free : FreeOk s regions live b as) (some_ : s.lists b ≠ 0) : ∃ bs, as = s.lists b :: bs ∧
    Linked s.mem (nextAt s.mem (s.lists b)) bs := by
  have linked := free.linked
  cases as with
  | nil => exact (some_ linked).elim
  | cons a as =>
      obtain ⟨here, -, rest⟩ := linked
      rw [here]
      exact ⟨as, rfl, rest⟩

theorem takeBlock_run (inv : MallocInv regions live s) (small : b < mallocBuckets) (positive : 0 < n) (fits : n + 16 ≤ (bucketSz b).toNat)
    (run : (takeBlock b).run s = some (p, t)) :
    p = 0 ∧ s.lists b = 0 ∧ t = s ∨ p.toNat = (s.lists b).toNat + 16 ∧ blockAt (s.lists b) b ∈ regions ∧ MallocInv regions ((p, n) :: live) t ∧
      OnlyHeader s t (s.lists b) := by
  obtain ⟨as, free⟩ := inv.free b small
  unfold takeBlock at run
  rw [run_bind_some (x := get) rfl] at run
  by_cases none : s.lists b = 0
  · rw [if_pos none] at run
    cases run
    exact .inl ⟨rfl, none, rfl⟩
  rw [if_neg none] at run
  obtain ⟨rfl, mem, lists, brk⟩ : p = s.lists b + headerSize ∧ t.mem = putBytes s.mem (s.lists b) (leBytes 2 magicNumber.toNat) ∧
      t.lists = Function.update s.lists b (nextAt s.mem (s.lists b)) ∧ t.brk = s.brk := by
    cases run
    exact ⟨rfl, rfl, rfl, rfl⟩
  clear run
  right
  obtain ⟨bs, rfl, linked⟩ := free.front none
  generalize s.lists b = h at *
  have block := free.blocks h List.mem_cons_self
  have room := room_start inv.toRegionsOk block
  rw [ofNat_blockAt] at room
  have place : (h + headerSize).toNat = h.toNat + 16 := by
    have inside := (inv.inside _ block).2.2
    have upper := inv.brk.upper
    rw [maxBrk_eq] at upper
    change h.toNat + _ ≤ _ at inside
    exact toNat_add_ofNat (k := 16) (by omega)
  have magic : magicAt t.mem h = magicNumber := by
    rw [mem]
    exact magicAt_put room magicNumber
  have rest (x : UInt64) (outside : x.toNat < h.toNat ∨ h.toNat + 2 ≤ x.toNat) : t.mem x = s.mem x := by
    unfold Room at room
    rw [mem]
    exact putBytes_other (by rw [length_leBytes]; omega) (by rw [length_leBytes]; omega)
  have only : OnlyHeader s t h := fun x outside => rest x (by omega)
  have same : nextAt t.mem h = nextAt s.mem h := nextAt_congr room fun x lower upper => rest x (by omega)
  have bucket : bucketAt t.mem h = bucketAt s.mem h := bucketAt_congr room fun x lower upper => rest x (by omega)
  have next {c : Nat} {a : UInt64} (other : blockAt a c ∈ regions) : nextAt t.mem a = nextAt s.mem a := by
    by_cases here : a = h
    · rw [here, same]
    · exact only.next inv.toRegionsOk block other here
  obtain ⟨notIn, nodup⟩ := List.nodup_cons.mp free.nodup
  refine ⟨place, block, ⟨only.regionsOk inv.toRegionsOk block brk magic bucket, fun c small => ?_, ?_, ?_⟩, only⟩
  · by_cases here : c = b
    · subst here
      refine ⟨bs, ?_, nodup, fun a member => free.blocks a (List.mem_cons_of_mem _ member), fun a member => ?_⟩
      · rw [lists, Function.update_self]
        exact linked.congr fun a member => next (free.blocks a (List.mem_cons_of_mem _ member))
      · refine List.forall_mem_cons.mpr ⟨fun clash => ?_, free.unused a (List.mem_cons_of_mem _ member)⟩
        dsimp only at clash
        obtain rfl : a = h := UInt64.toNat_inj.mp (by omega)
        exact notIn member
    · obtain ⟨cs, other⟩ := inv.free c small
      refine ⟨cs, ?_, other.nodup, other.blocks, fun a member => ?_⟩
      · rw [lists, Function.update_of_ne here]
        exact other.linked.congr fun a member => next (other.blocks a member)
      · refine List.forall_mem_cons.mpr ⟨fun clash => ?_, other.unused a member⟩
        dsimp only at clash
        obtain rfl : a = h := UInt64.toNat_inj.mp (by omega)
        exact here (blockAt_eq inv.toRegionsOk (other.blocks a member) block)
  · exact List.forall_mem_cons.mpr ⟨.block _ block b rfl place fits positive, inv.owned⟩
  · refine List.pairwise_cons.mpr ⟨fun l member clash => ?_, inv.distinct⟩
    apply free.unused h List.mem_cons_self l member
    rw [← clash, place]

theorem RegionsOk.cons (ok : RegionsOk s regions) (lower : heapStart.toNat ≤ r.start) (positive : 0 < r.len) (upper : r.start + r.len ≤ s.brk.toNat)
    (behind : ∀ q ∈ regions, q.before r) (header : ∀ b, r.bucket = some b → HeaderOk s.mem r b) : RegionsOk s (r :: regions) := by
  refine ⟨ok.brk, List.forall_mem_cons.mpr ⟨⟨lower, positive, upper⟩, ok.inside⟩, ?_, List.forall_mem_cons.mpr ⟨header, ok.headers⟩⟩
  refine List.forall_mem_cons.mpr ⟨List.forall_mem_cons.mpr ⟨.inl rfl, fun q member => .inr (.inr (behind q member))⟩, fun q member => ?_⟩
  exact List.forall_mem_cons.mpr ⟨.inr (.inl (behind q member)), ok.apart q member⟩

theorem Owned.cons (owned : Owned regions l) : Owned (r :: regions) l := by
  cases owned with
  | block q member b bucket place fits positive => exact .block q (List.mem_cons_of_mem _ member) b bucket place fits positive
  | large q member bucket place fits big => exact .large q (List.mem_cons_of_mem _ member) bucket place fits big

theorem addBlock_run (inv : MallocInv regions live s) (small : b < mallocBuckets) (wide : 32 ≤ (bucketSz b).toNat)
    (lower : heapStart.toNat ≤ h.toNat) (upper : h.toNat + (bucketSz b).toNat ≤ s.brk.toNat)
    (behind : ∀ r ∈ regions, r.start + r.len ≤ h.toNat) (run : (addBlock b h).run s = some ((), t)) :
    MallocInv (blockAt h b :: regions) live t ∧ t.brk = s.brk ∧ t.lists b = h ∧ ∀ x : UInt64, x.toNat < h.toNat → t.mem x = s.mem x := by
  have room : Room h := by
    have limit := inv.brk.upper
    rw [maxBrk_eq] at limit
    unfold Room
    omega
  obtain ⟨mem, lists, brk⟩ : t.mem = putBytes (putBytes (putBytes s.mem h (leBytes 2 magicNumber.toNat)) (h + 2) (leBytes 2 (UInt16.ofNat b).toNat))
      (h + 8) (leBytes 8 (s.lists b).toNat) ∧ t.lists = Function.update s.lists b h ∧ t.brk = s.brk := by
    cases run
    exact ⟨rfl, rfl, rfl⟩
  clear run
  have second {m : UInt64 → UInt8} {val : Nat} {x : UInt64} (outside : x.toNat < h.toNat + 2 ∨ h.toNat + 4 ≤ x.toNat) :
      putBytes m (h + 2) (leBytes 2 val) x = m x := putField_other room (k := 2) (by decide) (by decide) outside
  have third {m : UInt64 → UInt8} {val : Nat} {x : UInt64} (outside : x.toNat < h.toNat + 8 ∨ h.toNat + 16 ≤ x.toNat) :
      putBytes m (h + 8) (leBytes 8 val) x = m x := putField_other room (k := 8) (by decide) (by decide) outside
  have rest (x : UInt64) (outside : x.toNat < h.toNat ∨ h.toNat + 16 ≤ x.toNat) : t.mem x = s.mem x := by
    unfold Room at room
    rw [mem, third (by omega), second (by omega)]
    exact putBytes_other (by rw [length_leBytes]; omega) (by rw [length_leBytes]; omega)
  have magic : magicAt t.mem h = magicNumber := by
    rw [mem, magicAt_congr room fun x lower upper => third (by omega), magicAt_congr room fun x lower upper => second (by omega)]
    exact magicAt_put room magicNumber
  have bucket : (bucketAt t.mem h).toNat = b := by
    have bound : b < 9 := small
    rw [mem, bucketAt_congr room fun x lower upper => third (by omega), bucketAt_put room,
      UInt16.toNat_ofNat_of_lt' (by change b < 2 ^ 16; omega)]
  have next : nextAt t.mem h = s.lists b := by
    rw [mem]
    exact nextAt_put room
  have start : UInt64.ofNat (blockAt h b).start = h := UInt64.ofNat_toNat
  have keeps : MallocInv regions live { s with mem := t.mem } := inv.stores rfl ⟨inv.brk.aligned, inv.brk.lower, inv.brk.upper⟩ (Nat.le_refl _)
    fun r member c some_ x _ upper' => by
      have wide := (inv.headers r member c some_).wide
      have end_ := behind r member
      exact rest x (.inl (by omega))
  have grown := keeps.toRegionsOk.cons (r := blockAt h b) lower (by change 0 < (bucketSz b).toNat; omega) upper behind fun c some_ => by
    cases some_
    exact ⟨small, rfl, wide, by rw [start]; exact magic, by rw [start]; exact bucket⟩
  have regionsOk : RegionsOk t (blockAt h b :: regions) :=
    ⟨⟨by rw [brk]; exact grown.brk.aligned, by rw [brk]; exact grown.brk.lower, by rw [brk]; exact grown.brk.upper⟩,
      by rw [brk]; exact grown.inside, grown.apart, grown.headers⟩
  refine ⟨⟨regionsOk, fun c small' => ?_, fun l member => (inv.owned l member).cons, inv.distinct⟩, brk, ?_, fun x below => rest x (.inl below)⟩
  case refine_2 =>
    rw [lists, Function.update_self]
  obtain ⟨as, free⟩ := keeps.free c small'
  have new (a : UInt64) (member : a ∈ as) : a ≠ h := by
    rintro rfl
    have block := free.blocks a member
    have positive := (inv.inside _ block).2.1
    have end_ := behind _ block
    change a.toNat + (bucketSz c).toNat ≤ a.toNat at end_
    change 0 < (bucketSz c).toNat at positive
    omega
  by_cases here : c = b
  · subst here
    refine ⟨h :: as, ?_, List.nodup_cons.mpr ⟨fun member => new h member rfl, free.nodup⟩, ?_, ?_⟩
    · rw [lists, Function.update_self]
      refine ⟨rfl, ?_, ?_⟩
      · rintro rfl
        exact absurd lower (by decide)
      · rw [next]
        exact free.linked
    · exact List.forall_mem_cons.mpr ⟨List.mem_cons_self, fun a member => List.mem_cons_of_mem _ (free.blocks a member)⟩
    · refine List.forall_mem_cons.mpr ⟨fun l member clash => ?_, free.unused⟩
      obtain ⟨r, region, positive, start, end_, -, -⟩ := inv.place_cases member
      have := behind r region
      omega
  · refine ⟨as, ?_, free.nodup, fun a member => List.mem_cons_of_mem _ (free.blocks a member), free.unused⟩
    rw [lists, Function.update_of_ne here]
    exact free.linked

theorem toInt_toInt64 (small : x.toNat < 2 ^ 63) : x.toInt64.toInt = x.toNat := by
  have same : x.toInt64.toInt = x.toBitVec.toInt := rfl
  rw [same, BitVec.toInt_eq_toNat_of_lt]
  · rfl
  · change 2 * x.toNat < 2 ^ 64
    omega

theorem bucket_page (positive : 0 < b) (small : b < mallocBuckets) : (if 0 < 4096 / bucketSz b then 4096 / bucketSz b else 1) = 4096 / bucketSz b ∧
    (4096 / bucketSz b) * bucketSz b = 4096 ∧ (4096 / bucketSz b).toNat * (bucketSz b).toNat = 4096 ∧ 32 ≤ (bucketSz b).toNat := by
  have all : ∀ c : Fin 9, 0 < c.val → (if 0 < 4096 / bucketSz c then 4096 / bucketSz c else 1) = 4096 / bucketSz c ∧
    (4096 / bucketSz c) * bucketSz c = 4096 ∧ (4096 / bucketSz c).toNat * (bucketSz c).toNat = 4096 ∧ 32 ≤ (bucketSz c).toNat := by decide
  exact all ⟨b, small⟩ positive

/-- Part of a new page has been cut into blocks. -/
structure PageSoFar (live : Live) (s : Arena) (b addr sz : Nat) (i : Nat) (t : Arena) : Prop where
  inv : ∃ regions, MallocInv regions live t ∧ ∀ r ∈ regions, r.start + r.len ≤ addr + i * sz
  brk : t.brk.toNat = addr + 4096
  front : t.lists b = s.lists b ∨ addr ≤ (t.lists b).toNat
  mem : ∀ x : UInt64, x.toNat < addr → t.mem x = s.mem x

theorem mallocAddPage_run (inv : MallocInv regions live s) (positive : 0 < b) (small : b < mallocBuckets)
    (run : (mallocAddPage kernel b).run s = some ((), t)) :
    ∃ regions', MallocInv regions' live t ∧ (t.lists b = s.lists b ∨ s.brk.toNat ≤ (t.lists b).toNat) ∧ ∀ x : UInt64, x.toNat < s.brk.toNat → t.mem x = s.mem x := by
  obtain ⟨needed, whole, product, wide⟩ := bucket_page positive small
  have lower := inv.brk.lower
  have upper := inv.brk.upper
  have aligned := inv.brk.aligned
  rw [heapStart_eq] at lower
  rw [maxBrk_eq] at upper
  have sum : (s.brk + 4096).toNat = s.brk.toNat + 4096 := toNat_add_ofNat (k := 4096) (by omega)
  have pageEnd : pageUp (s.brk + 4096) = s.brk + 4096 := by
    apply UInt64.toNat_inj.mp
    rw [toNat_pageUp (by omega)]
    omega
  have less : s.brk.toInt64 < (s.brk + 4096).toInt64 := by
    rw [Int64.lt_iff_toInt_lt, toInt_toInt64 (by omega), toInt_toInt64 (by omega), sum]
    omega
  have increment : s.brk + 4096 - s.brk = 4096 := by grind
  unfold mallocAddPage at run
  dsimp only at run
  rw [needed, run_bind_some sbrk_zero, whole, pageEnd] at run
  obtain ⟨enough, u, extend, loop⟩ := run_bind_eq_some.mp run
  unfold extendTo at extend
  rw [run_bind_some sbrk_zero, if_pos less, increment] at extend
  obtain ⟨r, v, grow, last⟩ := run_bind_eq_some.mp extend
  cases last
  obtain ⟨grown, brk, result⟩ := sbrk_run inv.brk (by decide) (by decide) (.inl (by change s.brk.toNat + 4096 < _; omega)) grow
  rcases result with ⟨rfl, stays⟩ | ⟨rfl, good, more⟩
  · -- there was no memory
    cases loop
    exact ⟨regions, inv.stores grown.lists brk (by rw [stays]) fun r member c some_ x _ inside => grown.mem x (by
      have wide := (inv.headers r member c some_).wide
      have := (inv.inside r member).2.2
      omega), .inl (by rw [grown.lists]), grown.mem⟩
  · have enough : (s.brk != failed) = true := by simpa using good
    rw [if_pos enough] at loop
    change u.brk.toNat = s.brk.toNat + 4096 at more
    have start : PageSoFar live s b s.brk.toNat (bucketSz b).toNat 0 u := by
      refine ⟨⟨regions, inv.stores grown.lists brk (by omega) fun r member c some_ x _ inside => grown.mem x (by
        have wide := (inv.headers r member c some_).wide
        have := (inv.inside r member).2.2
        omega), fun r member => ?_⟩, more, .inl (by rw [grown.lists]), grown.mem⟩
      have := (inv.inside r member).2.2
      omega
    have done : PageSoFar live s b s.brk.toNat (bucketSz b).toNat (0 + (4096 / bucketSz b).toNat) t := by
      refine forRange_run (PageSoFar live s b s.brk.toNat (bucketSz b).toNat) start (fun j v w _ below sofar step => ?_) loop
      obtain ⟨regions', inv', ends⟩ := sofar.inv
      have room : (j + 1) * (bucketSz b).toNat ≤ 4096 := by
        rw [← product]
        exact Nat.mul_le_mul_right _ (by omega)
      rw [Nat.succ_mul] at room
      have place : (s.brk + UInt64.ofNat j * bucketSz b).toNat = s.brk.toNat + j * (bucketSz b).toNat := by
        have offset : UInt64.ofNat j * bucketSz b = .ofNat (j * (bucketSz b).toNat) := by
          rw [UInt64.ofNat_mul, UInt64.ofNat_toNat]
        rw [offset]
        exact toNat_add_ofNat (by omega)
      obtain ⟨inv'', brk', front', mem'⟩ := addBlock_run inv' small wide (by rw [heapStart_eq]; omega) (by rw [sofar.brk]; omega)
        (fun r member => by rw [place]; exact ends r member) step
      refine ⟨⟨_, inv'', List.forall_mem_cons.mpr ⟨?_, fun r member => ?_⟩⟩, by rw [brk', sofar.brk], .inr ?_, fun x below' => ?_⟩
      · change (s.brk + UInt64.ofNat j * bucketSz b).toNat + (bucketSz b).toNat ≤ _
        rw [place, Nat.succ_mul]
        omega
      · have := ends r member
        rw [Nat.succ_mul]
        omega
      · rw [front', place]
        omega
      · rw [mem' x (by omega), sofar.mem x below']
    obtain ⟨regions', inv', -⟩ := done.inv
    exact ⟨regions', inv', done.front, done.mem⟩

/-- The rounded size does not go around, and if the new break does, then to a place that the kernel refuses. -/
def LargeFine (s : Arena) (size : UInt64) : Prop :=
  size.toNat ≤ 2 ^ 64 - 4096 ∧ (s.brk.toNat + (pageUp size).toNat < 2 ^ 64 ∨
    2 ^ 64 < s.brk.toNat + (pageUp size).toNat ∧ s.brk.toNat + (pageUp size).toNat - 2 ^ 64 < heapStart.toNat)

def SizeFine (s : Arena) (size : UInt64) : Prop :=
  size = 0 ∨ 16 < size.toNat ∧ size.toNat ≤ 4096 ∨ 4096 < size.toNat ∧ LargeFine s size

def taken (s : Arena) (size : UInt64) : Option UInt64 :=
  if 4096 < size then none
  else match mallocBucket size with
    | none => none
    | some b => if s.lists b = 0 then none else some (s.lists b)

/-- What `malloc` does to the heap, and where it writes below the old end of the heap. -/
structure Malloced (regions : List Region) (live : Live) (s : Arena) (p size : UInt64) (t : Arena) : Prop where
  inv : ∃ regions', MallocInv regions' (live.add p size.toNat) t
  place : p = 0 ∨ taken s size = none ∧ s.brk.toNat ≤ p.toNat ∨
    ∃ h b, taken s size = some h ∧ p.toNat = h.toNat + 16 ∧ blockAt h b ∈ regions ∧ size.toNat + 16 ≤ (bucketSz b).toNat
  mem : ∀ x : UInt64, x.toNat < s.brk.toNat → t.mem x ≠ s.mem x → x.toNat < p.toNat ∧ p.toNat ≤ x.toNat + 16

theorem mallocLarge_run (inv : MallocInv regions live s) (big : 4096 < size.toNat) (fine : LargeFine s size)
    (run : (mallocLarge kernel size).run s = some (p, t)) : Malloced regions live s p size t := by
  have lower := inv.brk.lower
  rw [heapStart_eq] at lower
  have rounded := toNat_pageUp fine.1
  unfold mallocLarge at run
  rw [run_bind_some sbrk_zero] at run
  obtain ⟨r, u, grow, last⟩ := run_bind_eq_some.mp run
  obtain ⟨grown, brk, result⟩ := sbrk_run inv.brk (by omega) (by omega) fine.2 grow
  have below (r : Region) (member : r ∈ regions) (b : Nat) (bucket : r.bucket = some b) (x : UInt64) (_ : r.start ≤ x.toNat)
      (inside : x.toNat < r.start + 16) : u.mem x = s.mem x := by
    have wide := (inv.headers r member b bucket).wide
    have := (inv.inside r member).2.2
    exact grown.mem x (by omega)
  rcases result with ⟨rfl, stays⟩ | ⟨rfl, good, more⟩
  · rw [if_pos rfl] at last
    cases last
    refine ⟨⟨regions, ?_⟩, .inl rfl, fun x small differs => (differs (grown.mem x small)).elim⟩
    exact inv.stores grown.lists brk (by rw [stays]) below
  · rw [if_neg good] at last
    cases last
    have nonzero : s.brk ≠ 0 := by
      intro zero
      have value := congrArg UInt64.toNat zero
      change s.brk.toNat = 0 at value
      omega
    have keeps := inv.stores grown.lists brk (by omega) below
    have region := keeps.toRegionsOk.cons (r := ⟨s.brk.toNat, (pageUp size).toNat, none⟩) lower (by dsimp only; omega) (by dsimp only; omega)
      (fun q member => (inv.inside q member).2.2) fun b none => by cases none
    have fresh : taken s size = none := if_pos (show 4096 < size from UInt64.lt_iff_toNat_lt.mpr big)
    refine ⟨⟨⟨s.brk.toNat, (pageUp size).toNat, none⟩ :: regions, ?_⟩, .inr (.inl ⟨fresh, Nat.le_refl _⟩),
      fun x small differs => (differs (grown.mem x small)).elim⟩
    unfold Live.add
    rw [if_neg nonzero]
    refine ⟨region, fun b small => ?_, List.forall_mem_cons.mpr ⟨?_, fun l member => (inv.owned l member).cons⟩,
      List.pairwise_cons.mpr ⟨fun l member same => ?_, inv.distinct⟩⟩
    · obtain ⟨as, free⟩ := keeps.free b small
      refine ⟨as, free.linked, free.nodup, fun a member => List.mem_cons_of_mem _ (free.blocks a member), fun a member => ?_⟩
      refine List.forall_mem_cons.mpr ⟨fun clash => ?_, free.unused a member⟩
      have block := free.blocks a member
      have inside := (inv.inside _ block).2.2
      have wide := (inv.headers _ block b rfl).wide
      change a.toNat + (bucketSz b).toNat ≤ _ at inside
      change 32 ≤ (bucketSz b).toNat at wide
      dsimp only at clash
      omega
    · exact .large _ List.mem_cons_self rfl rfl (by dsimp only; omega) big
    · obtain ⟨r, region, positive, start, end_, -, -⟩ := inv.place_cases member
      have := (inv.inside r region).2.2
      have value := congrArg UInt64.toNat same
      dsimp only at value
      omega

theorem mallocBucket_some (large : 16 < size.toNat) (small : size.toNat ≤ 4096) (found : mallocBucket size = some b) :
    0 < b ∧ b < mallocBuckets ∧ size.toNat + 16 ≤ (bucketSz b).toNat := by
  have more : ¬size ≤ 16 := by
    rw [UInt64.le_iff_toNat_le]
    exact Nat.not_le_of_lt large
  unfold mallocBucket at found
  rw [if_neg more] at found
  obtain ⟨-, upper, fits, -⟩ := firstFrom_some found
  have fits := UInt64.le_iff_toNat_le.mp (of_decide_eq_true fits)
  have sum : (size + headerSize).toNat = size.toNat + 16 := toNat_add_ofNat (k := 16) (by omega)
  rw [sum] at fits
  refine ⟨?_, by omega, fits⟩
  by_contra zero
  obtain rfl : b = 0 := by omega
  change _ ≤ 16 at fits
  omega

theorem malloc_run (inv : MallocInv regions live s) (fine : SizeFine s size) (run : (malloc kernel size).run s = some (p, t)) :
    Malloced regions live s p size t := by
  have nothing : Malloced regions live s 0 size s := ⟨⟨regions, inv⟩, .inl rfl, fun x _ differs => (differs rfl).elim⟩
  unfold malloc at run
  by_cases zero : size = 0
  · rw [if_pos zero] at run
    cases run
    exact nothing
  rw [if_neg zero] at run
  by_cases big : 4096 < size
  · rw [if_pos big] at run
    have big := UInt64.lt_iff_toNat_lt.mp big
    change 4096 < size.toNat at big
    rcases fine with none | ⟨-, small⟩ | ⟨-, large⟩
    · exact (zero none).elim
    · omega
    · exact mallocLarge_run inv big large run
  rw [if_neg big] at run
  have small := Nat.le_of_not_lt big
  change size.toNat ≤ 4096 at small
  have large : 16 < size.toNat := by
    rcases fine with none | ⟨large, -⟩ | ⟨more, -⟩
    · exact (zero none).elim
    · exact large
    · omega
  cases found : mallocBucket size with
  | none =>
      rw [found] at run
      cases run
      exact nothing
  | some b =>
      rw [found] at run
      obtain ⟨positive, bound, fits⟩ := mallocBucket_some large small found
      dsimp only at run
      rw [run_bind_some (x := get) rfl] at run
      by_cases empty : s.lists b = 0
      · rw [if_pos empty] at run
        obtain ⟨_, u, page, take⟩ := run_bind_eq_some.mp run
        obtain ⟨regions', inv', front, mem⟩ := mallocAddPage_run inv positive bound page
        rcases takeBlock_run inv' bound (by omega) fits take with ⟨rfl, -, rfl⟩ | ⟨place, block, inv'', only⟩
        · exact ⟨⟨regions', inv'⟩, .inl rfl, fun x small differs => (differs (mem x small)).elim⟩
        have high : s.brk.toNat ≤ (u.lists b).toNat := by
          rcases front with same | high
          · have lower := (inv'.inside _ block).1
            rw [same, empty] at lower
            change heapStart.toNat ≤ 0 at lower
            rw [heapStart_eq] at lower
            omega
          · exact high
        have nonzero : p ≠ 0 := by
          rintro rfl
          change 0 = _ at place
          omega
        have fresh : taken s size = none := by
          unfold taken
          rw [if_neg big, found]
          exact if_pos empty
        refine ⟨⟨regions', ?_⟩, .inr (.inl ⟨fresh, by omega⟩), fun x small differs => ?_⟩
        · unfold Live.add
          rw [if_neg nonzero]
          exact inv''
        · exact (differs (by rw [only x (by omega), mem x small])).elim
      · rw [if_neg empty] at run
        rcases takeBlock_run inv bound (by omega) fits run with ⟨-, none, -⟩ | ⟨place, block, inv', only⟩
        · exact (empty none).elim
        have nonzero : p ≠ 0 := by
          rintro rfl
          change 0 = _ at place
          omega
        have front : taken s size = some (s.lists b) := by
          unfold taken
          rw [if_neg big, found]
          exact if_neg empty
        refine ⟨⟨regions, ?_⟩, .inr (.inr ⟨s.lists b, b, front, place, block, fits⟩), fun x _ differs => ?_⟩
        · unfold Live.add
          rw [if_neg nonzero]
          exact inv'
        · by_contra outside
          exact differs (only x (by omega))

/-- The bytes in front of a block do not pass for a header. -/
def FrontFine (mem : UInt64 → UInt8) (ptr : UInt64) : Prop :=
  ¬(magicAt mem (ptr - headerSize) = magicNumber ∧ (bucketAt mem (ptr - headerSize)).toNat < mallocBuckets)

theorem run_header {α : Type} {x : UInt64 → MallocM α} {a : α} (run : (header ptr >>= x).run s = some (a, t)) :
    (x (ptr - headerSize)).run s = some (a, t) := by
  obtain ⟨h, u, look, rest⟩ := run_bind_eq_some.mp run
  unfold header at look
  split at look
  · cases look
  · cases look
    exact rest

theorem free_front (front : FrontFine s.mem ptr) (run : (free ptr).run s = some ((), t)) : t = s := by
  unfold free at run
  split at run
  · cases run
    rfl
  replace run := run_header run
  rw [run_bind_some (x := get) rfl] at run
  dsimp only at run
  by_cases magic : magicAt s.mem (ptr - headerSize) ≠ magicNumber
  · rw [if_pos magic] at run
    cases run
    rfl
  rw [if_neg magic] at run
  have large : mallocBuckets ≤ (bucketAt s.mem (ptr - headerSize)).toNat := by
    by_contra small
    exact front ⟨not_not.mp magic, by omega⟩
  rw [if_pos large] at run
  cases run
  rfl

theorem free_run (inv : MallocInv regions live s) (member : (ptr, n) ∈ live) (front : 4096 < n → FrontFine s.mem ptr)
    (run : (free ptr).run s = some ((), t)) : MallocInv regions (live.erase (ptr, n)) t := by
  have fewer : MallocInv regions (live.erase (ptr, n)) s := inv.mono List.erase_sublist
  cases inv.owned _ member with
  | large r region bucket place fits big =>
      rw [free_front (front big) run]
      exact fewer
  | block r region b bucket place fits positive =>
      have header := inv.headers r region b bucket
      have room := room_start inv.toRegionsOk region
      have start := toNat_start inv.toRegionsOk region
      have back : ptr - headerSize = .ofNat r.start := by
        apply UInt64.toNat_inj.mp
        have value := UInt64.toNat_sub ptr headerSize
        change _ = (2 ^ 64 - 16 + ptr.toNat) % 2 ^ 64 at value
        have bound := ptr.toNat_lt
        omega
      have nonzero : ptr ≠ 0 := by
        rintro rfl
        change 0 = _ at place
        omega
      generalize here : UInt64.ofNat r.start = h at *
      have block : blockAt h b ∈ regions := by
        have same : blockAt h b = r := by
          unfold blockAt
          rw [start, ← header.len, ← bucket]
        rw [same]
        exact region
      have magic := header.magic
      have number := header.bucket
      rw [here] at magic number
      obtain ⟨mem, lists, brk⟩ : t.mem = putBytes s.mem (h + 8) (leBytes 8 (s.lists b).toNat) ∧ t.lists = Function.update s.lists b h ∧
          t.brk = s.brk := by
        unfold free at run
        rw [if_neg nonzero] at run
        replace run := run_header run
        rw [run_bind_some (x := get) rfl] at run
        dsimp only at run
        rw [back, magic, if_neg (not_not.mpr rfl), number, if_neg (Nat.not_le_of_lt header.small)] at run
        cases run
        exact ⟨rfl, rfl, rfl⟩
      clear run
      have rest (x : UInt64) (outside : x.toNat < h.toNat + 8 ∨ h.toNat + 16 ≤ x.toNat) : t.mem x = s.mem x := by
        rw [mem]
        exact putField_other room (k := 8) (by decide) (by decide) outside
      have only : OnlyHeader s t h := fun x outside => rest x (by omega)
      have regionsOk : RegionsOk t regions := only.regionsOk inv.toRegionsOk block brk
        ((magicAt_congr room fun x lower upper => rest x (by omega)).trans magic)
        (bucketAt_congr room fun x lower upper => rest x (by omega))
      have next : nextAt t.mem h = s.lists b := by
        rw [mem]
        exact nextAt_put room
      refine ⟨regionsOk, fun c small => ?_, fewer.owned, fewer.distinct⟩
      obtain ⟨as, free⟩ := inv.free c small
      -- the block was in use, so it is on no list
      have new (a : UInt64) (on : a ∈ as) : a ≠ h := by
        rintro rfl
        exact free.unused a on _ member (by dsimp only; omega)
      have others : ∀ a ∈ as, ∀ l ∈ live.erase (ptr, n), l.1.toNat ≠ a.toNat + 16 := fun a on l stays =>
        free.unused a on l (List.mem_of_mem_erase stays)
      by_cases mine : c = b
      · subst mine
        refine ⟨h :: as, ?_, List.nodup_cons.mpr ⟨fun on => new h on rfl, free.nodup⟩, List.forall_mem_cons.mpr ⟨block, free.blocks⟩,
          List.forall_mem_cons.mpr ⟨fun l stays clash => ?_, others⟩⟩
        · rw [lists, Function.update_self]
          refine ⟨rfl, ?_, ?_⟩
          · rintro rfl
            have lower := (inv.inside _ region).1
            rw [heapStart_eq, ← start] at lower
            exact absurd lower (by decide)
          · rw [next]
            exact free.linked.congr fun a on => only.next inv.toRegionsOk block (free.blocks a on) (new a on)
        · have both := (List.perm_cons_erase member).pairwise_iff (fun {x y : UInt64 × Nat} (h : x.1 ≠ y.1) => h.symm) |>.mp inv.distinct
          apply (List.pairwise_cons.mp both).1 l stays
          apply UInt64.toNat_inj.mp
          dsimp only
          omega
      · refine ⟨as, ?_, free.nodup, free.blocks, others⟩
        rw [lists, Function.update_of_ne mine]
        exact free.linked.congr fun a on => only.next inv.toRegionsOk block (free.blocks a on) (new a on)

/-- `t` differs from `s` in `n` bytes at `p` only. -/
structure Confined (s t : Arena) (p : UInt64) (n : Nat) : Prop where
  lists : t.lists = s.lists
  brk : t.brk = s.brk
  mem : ∀ x, t.mem x ≠ s.mem x → p.toNat ≤ x.toNat ∧ x.toNat < p.toNat + n

theorem Confined.byte {y : UInt8} (confined : Confined s t p n) (small : i < n) (whole : p.toNat + n ≤ 2 ^ 64)
    (run : (storeBytes (p + .ofNat i) [y]).run t = some ((), u)) : Confined s u p n := by
  cases run
  refine ⟨confined.lists, confined.brk, fun x differs => ?_⟩
  have place : (p + .ofNat i).toNat = p.toNat + i := toNat_add_ofNat (by omega)
  by_cases here : x.toNat = p.toNat + i
  · omega
  · have other : putBytes t.mem (p + .ofNat i) [y] x = t.mem x :=
      putBytes_other (by rw [List.length_singleton]; omega) (by rw [List.length_singleton]; omega)
    dsimp only at differs
    rw [other] at differs
    exact confined.mem x differs

theorem MallocInv.confined (inv : MallocInv regions live s) (member : (p, n) ∈ live) (confined : Confined s t p k) (less : k ≤ n) :
    MallocInv regions live t :=
  inv.storeTo member confined.lists confined.brk fun x differs => by
    have := confined.mem x differs
    dsimp only
    omega

theorem MallocInv.whole (inv : MallocInv regions live s) (member : (p, n) ∈ live) : p.toNat + n < 2 ^ 64 := by
  obtain ⟨r, region, -, upper, -⟩ := inv.place member
  have := (inv.inside r region).2.2
  have limit := inv.brk.upper
  rw [maxBrk_eq] at limit
  dsimp only at upper
  omega

theorem zero_run (whole : p.toNat + n ≤ 2 ^ 64) (run : (forRange (fun i => storeBytes (p + .ofNat i) [0]) 0 n).run s = some ((), t)) :
    Confined s t p n := by
  have start : Confined s s p n := ⟨rfl, rfl, fun x differs => (differs rfl).elim⟩
  exact forRange_run (fun _ v => Confined s v p n) start (fun j v w _ below confined step => confined.byte (by omega) whole step) run

/-- Sizes for which there is no bucket, and none at all. -/
def Refused (size : UInt64) : Prop := size = 0 ∨ 4080 < size.toNat ∧ size.toNat ≤ 4096

theorem malloc_refused (refused : Refused size) (run : (malloc kernel size).run s = some (p, t)) : p = 0 ∧ t = s := by
  unfold malloc at run
  rcases refused with zero | ⟨large, small⟩
  · rw [if_pos zero] at run
    cases run
    exact ⟨rfl, rfl⟩
  have some_ : size ≠ 0 := by
    rintro rfl
    exact absurd large (by decide)
  have fits : ¬4096 < size := fun big => by
    have big := UInt64.lt_iff_toNat_lt.mp big
    change 4096 < size.toNat at big
    omega
  have none : mallocBucket size = none := by
    cases found : mallocBucket size with
    | none => rfl
    | some b =>
        obtain ⟨-, bound, room⟩ := mallocBucket_some (by omega) small found
        have widest : ∀ c : Fin 9, (bucketSz c).toNat ≤ 4096 := by decide
        have := widest ⟨b, bound⟩
        dsimp only at this
        omega
  rw [if_neg some_, if_neg fits, none] at run
  cases run
  exact ⟨rfl, rfl⟩

theorem calloc_run {nmemb : UInt64} (inv : MallocInv regions live s)
    (product : nmemb.toNat * size.toNat < 2 ^ 64 ∨ Refused (nmemb * size)) (fine : SizeFine s (nmemb * size))
    (run : (calloc kernel nmemb size).run s = some (p, t)) : ∃ regions', MallocInv regions' (live.add p (nmemb.toNat * size.toNat)) t := by
  unfold calloc at run
  dsimp only at run
  obtain ⟨q, u, alloc, rest⟩ := run_bind_eq_some.mp run
  obtain ⟨regions', inv'⟩ := (malloc_run inv fine alloc).inv
  by_cases none : q = 0
  · rw [if_neg (not_not.mpr none)] at rest
    cases rest
    unfold Live.add at inv' ⊢
    rw [if_pos none] at inv' ⊢
    exact ⟨regions', inv'⟩
  have exact_ : (nmemb * size).toNat = nmemb.toNat * size.toNat := by
    rcases product with small | refused
    · rw [UInt64.toNat_mul, Nat.mod_eq_of_lt small]
    · exact (none (malloc_refused refused alloc).1).elim
  rw [if_pos none] at rest
  obtain ⟨_, v, zero, last⟩ := run_bind_eq_some.mp rest
  cases last
  rw [exact_] at inv' zero
  unfold Live.add at inv' ⊢
  rw [if_neg none] at inv' ⊢
  have confined := zero_run (inv'.whole List.mem_cons_self).le zero
  exact ⟨regions', inv'.confined List.mem_cons_self confined (Nat.le_refl _)⟩

def copyLen (mem : UInt64 → UInt8) (ptr newSize : UInt64) : Nat :=
  (if oldSize mem ptr < newSize then oldSize mem ptr else newSize).toNat

/-- The memory when `realloc` frees the old block: the new block may lie right in front of it. -/
def copied (s : Arena) (ptr newSize : UInt64) : UInt64 → UInt8 :=
  match taken s newSize with
  | none => s.mem
  | some h => fun x =>
      if (x - (h + headerSize)).toNat < copyLen s.mem ptr newSize then s.mem (ptr + (x - (h + headerSize))) else s.mem x

theorem oldSize_le (mem : UInt64 → UInt8) (ptr : UInt64) : (oldSize mem ptr).toNat ≤ 4080 := by
  have all : ∀ c : Fin 9, (bucketSz c - headerSize).toNat ≤ 4080 := by decide
  unfold oldSize
  dsimp only
  split
  · next small => exact all ⟨_, small⟩
  · decide

theorem copyLen_le (mem : UInt64 → UInt8) (ptr newSize : UInt64) : copyLen mem ptr newSize ≤ 4080 ∧ copyLen mem ptr newSize ≤ newSize.toNat := by
  have old := oldSize_le mem ptr
  unfold copyLen
  split
  · next less =>
      have := UInt64.lt_iff_toNat_lt.mp less
      omega
  · next more =>
      rw [UInt64.lt_iff_toNat_lt] at more
      omega

theorem copy_confined {src : UInt64} (whole : p.toNat + n ≤ 2 ^ 64) (run : (forRange (copyByte p src) 0 n).run s = some ((), t)) :
    Confined s t p n := by
  have start : Confined s s p n := ⟨rfl, rfl, fun x differs => (differs rfl).elim⟩
  refine forRange_run (fun _ v => Confined s v p n) start (fun j v w _ below confined step => ?_) run
  unfold copyByte at step
  rw [run_bind_some (x := get) rfl] at step
  exact confined.byte (by omega) whole step

theorem copy_run {src : UInt64} (whole : p.toNat + n ≤ 2 ^ 64) (whole' : src.toNat + n ≤ 2 ^ 64)
    (apart : p.toNat + n ≤ src.toNat ∨ src.toNat + n ≤ p.toNat) (run : (forRange (copyByte p src) 0 n).run s = some ((), t)) :
    ∀ x, t.mem x = if (x - p).toNat < n then s.mem (src + (x - p)) else s.mem x := by
  have done := forRange_run (fun i v => ∀ x, v.mem x = if (x - p).toNat < i then s.mem (src + (x - p)) else s.mem x)
    (fun x => (if_neg (Nat.not_lt_zero _)).symm) (fun j v w _ below sofar step x => ?_) run
  · rwa [Nat.zero_add] at done
  · unfold copyByte at step
    rw [run_bind_some (x := get) rfl] at step
    cases step
    have place : (p + .ofNat j).toNat = p.toNat + j := toNat_add_ofNat (by omega)
    have from_ : (src + .ofNat j).toNat = src.toNat + j := toNat_add_ofNat (by omega)
    have source : v.mem (src + .ofNat j) = s.mem (src + .ofNat j) := by
      rw [sofar, if_neg]
      rw [sub_lt_iff (by omega)]
      omega
    dsimp only
    rw [source]
    by_cases here : x = p + .ofNat j
    · subst here
      have index : p + .ofNat j - p = UInt64.ofNat j := by grind
      have value : (UInt64.ofNat j).toNat = j := UInt64.toNat_ofNat_of_lt' (by change j < 2 ^ 64; omega)
      rw [index, value, if_pos (by omega)]
      unfold putBytes
      rw [UInt64.sub_self]
      exact if_pos Nat.one_pos
    · have other : x.toNat ≠ p.toNat + j := by
        rw [← place]
        exact fun same => here (UInt64.toNat_inj.mp same)
      rw [putBytes_other (by rw [List.length_singleton]; omega) (by rw [List.length_singleton]; omega), sofar]
      have before : (x - p).toNat < j ↔ (x - p).toNat < j + 1 := by
        rw [sub_lt_iff (by omega), sub_lt_iff (by omega)]
        omega
      rw [if_congr before rfl rfl]

theorem FrontFine.congr (front : FrontFine mem ptr) (room : 16 ≤ ptr.toNat)
    (same : ∀ x : UInt64, ptr.toNat ≤ x.toNat + 16 → x.toNat < ptr.toNat → mem' x = mem x) : FrontFine mem' ptr := by
  have back : (ptr - headerSize).toNat = ptr.toNat - 16 := by
    have value := UInt64.toNat_sub ptr headerSize
    change _ = (2 ^ 64 - 16 + ptr.toNat) % 2 ^ 64 at value
    have bound := ptr.toNat_lt
    omega
  have fits : Room (ptr - headerSize) := by
    have bound := ptr.toNat_lt
    unfold Room
    omega
  obtain ⟨magic, bucket, -⟩ := header_congr fits fun x lower upper => same x (by omega) (by omega)
  unfold FrontFine
  rw [magic, bucket]
  exact front

theorem copied_front (inv : MallocInv regions live s) (member : (ptr, n) ∈ live) (big : 4096 < n) (malloced : Malloced regions live s p newSize u)
    (refusal : p ≠ 0) (copy : (forRange (copyByte p ptr) 0 (copyLen s.mem ptr newSize)).run u = some ((), t))
    (front : FrontFine (copied s ptr newSize) ptr) : FrontFine t.mem ptr := by
  obtain ⟨r, region, positive, start, end_, block, large⟩ := inv.place_cases member
  have inside := inv.inside r region
  rw [heapStart_eq] at inside
  obtain ⟨regions', inv'⟩ := malloced.inv
  unfold Live.add at inv'
  rw [if_neg refusal] at inv'
  obtain ⟨short, less⟩ := copyLen_le s.mem ptr newSize
  have whole := inv'.whole List.mem_cons_self
  have confined := copy_confined (by omega) copy
  have here : r.bucket = none ∧ r.start = ptr.toNat := by
    cases bucket : r.bucket with
    | none => exact ⟨rfl, (large bucket).1.symm⟩
    | some b =>
        have header := inv.headers r region b bucket
        have widest : ∀ c : Fin 9, (bucketSz c).toNat ≤ 4096 := by decide
        have wide := widest ⟨b, header.small⟩
        have len := header.len
        have := block b bucket
        dsimp only at wide this end_
        omega
  dsimp only at end_ start
  refine front.congr (by omega) fun x lower upper => ?_
  unfold copied
  rcases malloced.place with zero | ⟨fresh, high⟩ | ⟨h, b, found, place, taken_, fits⟩
  · exact (refusal zero).elim
  · rw [fresh]
    have first : t.mem x = u.mem x := by
      by_contra differs
      have := (confined.mem x differs).1
      omega
    have second : u.mem x = s.mem x := by
      by_contra differs
      have := malloced.mem x (by omega) differs
      omega
    rw [first, second]
  · rw [found]
    dsimp only
    have wide := (inv.headers _ taken_ b rfl).wide
    have mine := (inv.inside _ taken_).2.2
    change 32 ≤ (bucketSz b).toNat at wide
    change h.toNat + (bucketSz b).toNat ≤ _ at mine
    have limit := inv.brk.upper
    rw [maxBrk_eq] at limit
    have address : h + headerSize = p := by
      apply UInt64.toNat_inj.mp
      rw [place]
      exact toNat_add_ofNat (k := 16) (by omega)
    rw [address]
    have apart : h.toNat + (bucketSz b).toNat ≤ ptr.toNat ∨ r.start + r.len ≤ h.toNat := by
      rcases inv.apart _ taken_ r region with same | before | behind
      · rw [← same] at here
        cases here.1
      · unfold Region.before at before
        change h.toNat + (bucketSz b).toNat ≤ r.start at before
        omega
      · exact .inr behind
    have same (y : UInt64) (below : y.toNat < s.brk.toNat) (off : y.toNat < h.toNat ∨ h.toNat + 16 ≤ y.toNat) : u.mem y = s.mem y := by
      by_contra differs
      have := malloced.mem y below differs
      omega
    have disjoint : p.toNat + copyLen s.mem ptr newSize ≤ ptr.toNat ∨ ptr.toNat + copyLen s.mem ptr newSize ≤ p.toNat := by
      omega
    rw [copy_run (by omega) (by omega) disjoint copy x, same x (by omega) (by omega)]
    split
    · next inside' =>
        have index : (ptr + (x - p)).toNat = ptr.toNat + (x - p).toNat := by
          rw [UInt64.toNat_add]
          omega
        rw [same _ (by omega) (by omega)]
    · rfl

theorem realloc_run (inv : MallocInv regions live s) (member : (ptr, n) ∈ live) (some_ : newSize ≠ 0) (fine : SizeFine s newSize)
    (front : 4096 < n → FrontFine (copied s ptr newSize) ptr) (run : (realloc kernel ptr newSize).run s = some (p, t)) :
    ∃ regions', MallocInv regions' (if p = 0 then live else (p, newSize.toNat) :: live.erase (ptr, n)) t := by
  obtain ⟨r, region, positive, start, end_, block, large⟩ := inv.place_cases member
  have inside := inv.inside r region
  rw [heapStart_eq] at inside
  have nonzero : ptr ≠ 0 := by
    rintro rfl
    change r.start ≤ 0 at start
    omega
  unfold realloc at run
  rw [if_neg nonzero, if_neg some_] at run
  replace run := run_header run
  rw [run_bind_some (x := get) rfl] at run
  dsimp only at run
  obtain ⟨q, u, alloc, rest⟩ := run_bind_eq_some.mp run
  have malloced := malloc_run inv fine alloc
  obtain ⟨regions', inv'⟩ := malloced.inv
  unfold Live.add at inv'
  by_cases refusal : q = 0
  · rw [if_pos refusal] at rest inv'
    cases rest
    rw [if_pos rfl]
    exact ⟨regions', inv'⟩
  rw [if_neg refusal] at rest inv'
  obtain ⟨_, v, copy, rest⟩ := run_bind_eq_some.mp rest
  obtain ⟨_, w, release, last⟩ := run_bind_eq_some.mp rest
  cases last
  rw [if_neg refusal]
  change (forRange (copyByte p ptr) 0 (copyLen s.mem ptr newSize)).run u = _ at copy
  obtain ⟨short, less⟩ := copyLen_le s.mem ptr newSize
  have whole := inv'.whole List.mem_cons_self
  have confined := copy_confined (by omega) copy
  have inv'' := inv'.confined List.mem_cons_self confined less
  have differ : (p, newSize.toNat) ≠ (ptr, n) := by
    intro same
    exact (List.pairwise_cons.mp inv'.distinct).1 _ member (congrArg Prod.fst same)
  have freed := free_run inv'' (List.mem_cons_of_mem _ member)
    (fun big => copied_front inv member big malloced refusal copy (front big)) release
  rw [List.erase_cons_tail (by simpa using differ)] at freed
  exact ⟨regions', freed⟩

/-- What is asked of a call: no size from 1 to 16 and none that goes around, and no large block given back while the bytes in front of it
pass for a header. -/
def Fine (live : Live) (s : Arena) : MallocCall → Prop
  | .malloc size => SizeFine s size
  | .calloc nmemb size => (nmemb.toNat * size.toNat < 2 ^ 64 ∨ Refused (nmemb * size)) ∧ SizeFine s (nmemb * size)
  | .realloc ptr newSize => SizeFine s newSize ∧
      ∀ n, (ptr, n) ∈ live → 4096 < n → FrontFine (if newSize = 0 then s.mem else copied s ptr newSize) ptr
  | .free ptr => ∀ n, (ptr, n) ∈ live → 4096 < n → FrontFine s.mem ptr
  | .store _ => True

/-- What is promised of the allocations: they are apart, inside the heap, and off the headers of the blocks. -/
structure MallocGood (live : Live) (s : Arena) : Prop where
  distinct : live.Pairwise fun l m => l.1 ≠ m.1
  apart : live.Pairwise fun l m => l.1.toNat + l.2 ≤ m.1.toNat ∨ m.1.toNat + m.2 ≤ l.1.toNat
  inside : ∀ l ∈ live, heapStart.toNat ≤ l.1.toNat ∧ l.1.toNat + l.2 ≤ s.brk.toNat
  freeHeaders : ∀ b < mallocBuckets, ∀ h, OnList s.mem (s.lists b) h → ∀ l ∈ live, h.toNat + 16 ≤ l.1.toNat ∨ l.1.toNat + l.2 ≤ h.toNat
  liveHeaders : ∀ m ∈ live, m.2 ≤ 4096 → ∀ l ∈ live, m.1.toNat ≤ l.1.toNat ∨ l.1.toNat + l.2 + 16 ≤ m.1.toNat

theorem onList_mem (on : OnList mem p h) (linked : Linked mem p as) : h ∈ as := by
  induction on generalizing as with
  | front some_ =>
      cases as with
      | nil => exact (some_ linked).elim
      | cons a as =>
          rw [linked.1]
          exact List.mem_cons_self
  | later some_ rest ih =>
      cases as with
      | nil => exact (some_ linked).elim
      | cons a as =>
          obtain ⟨here, -, linked⟩ := linked
          subst here
          exact List.mem_cons_of_mem _ (ih linked)

theorem MallocInv.good (inv : MallocInv regions live s) : MallocGood live s := by
  refine ⟨inv.distinct, inv.distinct.imp_of_mem fun {l m} first second differ => ?_, fun l member => ?_, fun b small h on l member => ?_,
    fun m member small l other => ?_⟩
  · obtain ⟨r, region, positive, lower, upper, block, large⟩ := inv.place_cases first
    obtain ⟨q, region', positive', lower', upper', block', large'⟩ := inv.place_cases second
    rcases inv.apart r region q region' with rfl | before | behind
    · -- two allocations of one region are one
      apply (differ _).elim
      apply UInt64.toNat_inj.mp
      cases bucket : r.bucket with
      | none => rw [(large bucket).1, (large' bucket).1]
      | some b => rw [block b bucket, block' b bucket]
    · unfold Region.before at before
      omega
    · unfold Region.before at behind
      omega
  · obtain ⟨r, region, -, lower, upper, -, -⟩ := inv.place_cases member
    have := inv.inside r region
    omega
  · obtain ⟨as, free⟩ := inv.free b small
    exact inv.off_headers member (free.blocks h (onList_mem on free.linked)) rfl
  · obtain ⟨r, region, -, lower, upper, block, large⟩ := inv.place_cases member
    cases bucket : r.bucket with
    | none =>
        have := (large bucket).2
        omega
    | some b =>
        have := block b bucket
        have := inv.off_headers other region bucket
        omega

theorem start_inv : MallocInv [] [] ⟨mem, fun _ => 0, heapStart, 0⟩ := by
  have aligned : heapStart.toNat % 4096 = 0 := by decide
  refine ⟨⟨⟨aligned, Nat.le_refl _, ?_⟩, fun r none => (by cases none), fun r none => (by cases none), fun r none => (by cases none)⟩,
    fun b small => ⟨[], rfl, .nil, fun a none => (by cases none), fun a none => (by cases none)⟩, fun l none => (by cases none), .nil⟩
  change heapStart.toNat ≤ maxBrk
  rw [heapStart_eq, maxBrk_eq]
  decide

theorem mallocStep_inv {live' : Live} {call : MallocCall} (inv : MallocInv regions live s) (fine : Fine live s call)
    (step : MallocStep kernel live s call live' t) : ∃ regions', MallocInv regions' live' t := by
  cases step with
  | malloc run => exact (malloc_run inv fine run).inv
  | calloc run => exact calloc_run inv fine.1 fine.2 run
  | reallocNull run =>
      unfold realloc at run
      rw [if_pos rfl] at run
      exact (malloc_run inv fine.1 run).inv
  | @reallocFree ptr n p t owned run =>
      unfold realloc at run
      by_cases null : ptr = 0
      · -- address 0 is not in the heap
        obtain ⟨r, region, -, lower, -, -, -⟩ := inv.place_cases owned
        have start := (inv.inside r region).1
        subst null
        change r.start ≤ 0 at lower
        rw [heapStart_eq] at start
        omega
      rw [if_neg null, if_pos rfl] at run
      obtain ⟨_, u, release, last⟩ := run_bind_eq_some.mp run
      cases last
      exact ⟨regions, free_run inv owned (fine.2 n owned) release⟩
  | @realloc ptr newSize p n t owned some_ run =>
      have front := fine.2 n owned
      rw [if_neg some_] at front
      exact realloc_run inv owned some_ fine.1 front run
  | freeNull run =>
      cases run
      exact ⟨regions, inv⟩
  | @free ptr n t owned run => exact ⟨regions, free_run inv owned (fine n owned) run⟩
  | @store mem inside =>
      refine ⟨regions, inv.stores rfl ⟨inv.brk.aligned, inv.brk.lower, inv.brk.upper⟩ (Nat.le_refl _) fun r region b bucket x lower upper => ?_⟩
      by_contra differs
      have wide := (inv.headers r region b bucket).wide
      have bounds := inv.inside r region
      rcases inside x differs with ⟨l, member, within⟩ | low | high
      · have off := inv.off_headers member region bucket
        rw [sub_lt_iff (inv.whole member).le] at within
        omega
      · have := UInt64.lt_iff_toNat_lt.mp low
        omega
      · have := UInt64.le_iff_toNat_le.mp high
        omega

theorem mallocRun_inv (run : MallocRun kernel Fine live s) : ∃ regions, MallocInv regions live s := by
  induction run with
  | start => exact ⟨[], start_inv⟩
  | step before meets step ih =>
      obtain ⟨regions, inv⟩ := ih
      exact mallocStep_inv inv meets step

/-- The allocator keeps its promise in every run whose calls are fine. -/
theorem malloc_good (run : MallocRun kernel Fine live s) : MallocGood live s := by
  obtain ⟨regions, inv⟩ := mallocRun_inv run
  exact inv.good

def plenty : Supply where
  grants := fun _ newPage => decide (newPage.toNat ≤ heapStart.toNat + 4096 * Mm.maxPages)
  fresh := fun _ _ => 0
  bounded := fun _ _ granted => of_decide_eq_true granted

def firstArena : Arena := ⟨fun _ => 0, fun _ => 0, heapStart, 0⟩

theorem malloc_good_first : ∃ p s, p ≠ 0 ∧ MallocRun plenty Fine [(p, 100)] s ∧ MallocGood [(p, 100)] s := by
  have result : ((malloc plenty 100).run firstArena).map (fun r => r.1) = some 0x10000F90 := by decide +kernel
  obtain ⟨⟨p, s⟩, run, value⟩ := Option.map_eq_some_iff.mp result
  dsimp only at value
  subst value
  have fine : Fine [] firstArena (.malloc 100) := .inr (.inl (by decide))
  have history : MallocRun plenty Fine _ s := .step .start fine (.malloc run)
  exact ⟨_, s, by decide, history, malloc_good history⟩

/-- 8 bytes: the block is all header, and the bytes lie behind the end of the heap. -/
theorem malloc_small : ∃ p s, (malloc plenty 8).run firstArena = some (p, s) ∧ p = s.brk ∧
    MallocRun plenty (fun _ _ _ => True) [(p, 8)] s ∧ ¬MallocGood [(p, 8)] s := by
  have result : ((malloc plenty 8).run firstArena).map (fun r => (r.1, r.2.brk)) = some (0x10001000, 0x10001000) := by decide +kernel
  obtain ⟨⟨p, s⟩, run, value⟩ := Option.map_eq_some_iff.mp result
  obtain ⟨first, second⟩ := Prod.mk.inj value
  dsimp only at first second
  subst first
  refine ⟨_, s, run, second.symm, .step .start trivial (.malloc run), fun good => ?_⟩
  have inside := (good.inside _ List.mem_cons_self).2
  rw [second] at inside
  exact absurd inside (by decide)

end SwiftBSD.Proof.Userland
