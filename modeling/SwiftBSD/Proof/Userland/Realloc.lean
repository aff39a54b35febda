import SwiftBSD.Proof.Userland.Sizes

namespace SwiftBSD.Proof.Userland
open Lib SwiftBSD.Userland SwiftBSD.Proof.Mm

variable {kernel : Supply} {s t u v : Arena} {h p q x size newSize : UInt64} {a n b : Nat} {live : Live} {regions regions' : List Region}
  {l : UInt64 × Nat}

def SameBytes (s t : Arena) (l : UInt64 × Nat) : Prop := ∀ x : UInt64, l.1.toNat ≤ x.toNat → x.toNat < l.1.toNat + l.2 → t.mem x = s.mem x

theorem SameBytes.trans (first : SameBytes s t l) (second : SameBytes t u l) : SameBytes s u l := fun x lower upper =>
  (second x lower upper).trans (first x lower upper)

theorem malloc_writes (inv : MallocInv regions live s) (fine : SizeFine s size) (run : (malloc kernel size).run s = some (p, t))
    (below : x.toNat < s.brk.toNat) (differs : t.mem x ≠ s.mem x) : ∃ h b, blockAt h b ∈ regions ∧ h.toNat ≤ x.toNat ∧ x.toNat < h.toNat + 16 := by
  by_cases zero : size = 0
  · obtain ⟨-, rfl⟩ := malloc_refused (.inl zero) run
    exact (differs rfl).elim
  rcases fine with none | ⟨large, small⟩ | ⟨large, fits⟩
  · exact (zero none).elim
  · cases found : mallocBucket size with
    | none =>
        have gap : 4080 < size.toNat := by
          by_contra few
          obtain ⟨b, some_⟩ := mallocBucket_fits large (Nat.le_of_not_lt few)
          rw [found] at some_
          cases some_
        obtain ⟨-, rfl⟩ := malloc_refused (.inr ⟨gap, small⟩) run
        exact (differs rfl).elim
    | some b =>
        obtain ⟨positive, bound, room⟩ := mallocBucket_some large small found
        rcases malloc_bucket zero small found run with ⟨more, take⟩ | ⟨empty, u, page, take⟩
        · rcases takeBlock_run inv bound (by omega) room take with ⟨-, none, -⟩ | ⟨-, block, -, only⟩
          · exact (more none).elim
          refine ⟨_, b, block, ?_⟩
          by_contra outside
          exact differs (only x (by omega))
        · obtain ⟨regions', inv', front, mem⟩ := mallocAddPage_run inv positive bound page
          rcases takeBlock_run inv' bound (by omega) room take with ⟨-, -, rfl⟩ | ⟨-, block, -, only⟩
          · exact (differs (mem x below)).elim
          have high : s.brk.toNat ≤ (u.lists b).toNat := by
            rcases front with same | high
            · have lower := (inv'.inside _ block).1
              rw [same, empty] at lower
              change heapStart.toNat ≤ 0 at lower
              rw [heapStart_eq] at lower
              omega
            · exact high
          exact (differs (by rw [only x (by omega), mem x below])).elim
  · have big : 4096 < size := UInt64.lt_iff_toNat_lt.mpr large
    have rounded := toNat_pageUp fits.1
    unfold malloc at run
    rw [if_neg zero, if_pos big] at run
    obtain ⟨r, ask, -⟩ := mallocLarge_sbrk run
    obtain ⟨grown, -, -⟩ := sbrk_run inv.brk (by omega) (by omega) fits.2 ask
    exact (differs (grown.mem x below)).elim

theorem malloc_keeps (inv : MallocInv regions live s) (fine : SizeFine s size) (run : (malloc kernel size).run s = some (p, t))
    (member : l ∈ live) : SameBytes s t l := by
  intro x lower upper
  by_contra differs
  obtain ⟨r, region, -, start, end_, -⟩ := inv.place_cases member
  have inside := (inv.inside r region).2.2
  obtain ⟨h, b, block, from_, upto⟩ := malloc_writes inv fine run (by omega) differs
  have off := inv.off_headers member block rfl
  change h.toNat + 16 ≤ _ ∨ _ ≤ h.toNat at off
  omega

theorem free_keeps (inv : MallocInv regions live s) (member : (p, n) ∈ live) (front : 4096 < n → FrontFine s.mem p)
    (run : (free p).run s = some ((), t)) (other : l ∈ live) : SameBytes s t l := by
  cases inv.owned _ member with
  | large r region bucket place fits big =>
      rw [free_front (front big) run]
      exact fun x _ _ => rfl
  | block r region b bucket place fits positive =>
      have off := inv.off_headers other region bucket
      have room := room_start inv.toRegionsOk region
      have start := toNat_start inv.toRegionsOk region
      have back : p - headerSize = .ofNat r.start := by
        apply UInt64.toNat_inj.mp
        have value := UInt64.toNat_sub p headerSize
        change _ = (2 ^ 64 - 16 + p.toNat) % 2 ^ 64 at value
        have bound := p.toNat_lt
        omega
      have nonzero : p ≠ 0 := by
        rintro rfl
        change 0 = _ at place
        omega
      have mem : t.mem = s.mem ∨ ∃ v, t.mem = putBytes s.mem (.ofNat r.start + 8) (leBytes 8 v) := by
        unfold free at run
        rw [if_neg nonzero] at run
        replace run := run_header run
        rw [run_bind_some (x := get) rfl] at run
        dsimp only at run
        rw [back] at run
        split at run
        · cases run
          exact .inl rfl
        split at run
        · cases run
          exact .inl rfl
        · cases run
          exact .inr ⟨_, rfl⟩
      intro x lower upper
      rcases mem with same | ⟨v, same⟩
      · rw [same]
      · rw [same]
        exact putField_other room (k := 8) (by decide) (by decide) (by omega)

theorem free_brk (run : (free p).run s = some ((), t)) : t.brk = s.brk := by
  unfold free at run
  split at run
  · cases run
    rfl
  replace run := run_header run
  rw [run_bind_some (x := get) rfl] at run
  dsimp only at run
  split at run
  · cases run
    rfl
  split at run
  · cases run
    rfl
  · cases run
    rfl

/-- There is heap in front of the block. A large block at the start of the heap has none. -/
def Fronted (p : UInt64) (a : Nat) : Prop := 4096 < a → heapStart ≤ p - headerSize

/-- The sizes that `realloc` can give to an allocation of `a` bytes: there is no memory for them, or the bytes in front of the block give a size
that is large enough, and do not pass for a header as a whole. -/
def ReallocMet (kernel : Supply) (s : Arena) (p : UInt64) (a : Nat) (newSize : UInt64) : Prop :=
  Fronted p a ∧ (Denied kernel s newSize ∨ 4080 < newSize.toNat ∧ newSize.toNat ≤ 4096 ∨
    Served s newSize ∧ (4096 < a → newSize.toNat ≤ (oldSize s.mem p).toNat ∧ FrontFine (copied s p newSize) p))

def StillLive (t : Arena) (p : UInt64) : Prop := ∀ b < mallocBuckets, ¬OnList t.mem (t.lists b) (p - headerSize)

structure Reallocated (live : Live) (s : Arena) (p : UInt64) (a : Nat) (newSize q : UInt64) (t : Arena) : Prop where
  moved : q ≠ 0 → q.toNat + newSize.toNat ≤ t.brk.toNat ∧ ∀ i < min a newSize.toNat, t.mem (q + .ofNat i) = s.mem (p + .ofNat i)
  stays : q = 0 → StillLive t p ∧ SameBytes s t (p, a)
  others : ∀ l ∈ live, l ≠ (p, a) → SameBytes s t l

theorem MallocInv.stillLive (inv : MallocInv regions live t) (member : (p, n) ∈ live) : StillLive t p := by
  intro b small on
  obtain ⟨as, free⟩ := inv.free b small
  have unused := free.unused _ (onList_mem on free.linked) _ member
  obtain ⟨r, region, -, lower, -⟩ := inv.place_cases member
  have start := (inv.inside r region).1
  rw [heapStart_eq] at start
  have value := UInt64.toNat_sub p headerSize
  change _ = (2 ^ 64 - 16 + p.toNat) % 2 ^ 64 at value
  have bound := p.toNat_lt
  dsimp only at unused lower
  omega

theorem sbrk_refused (brk : BrkInv s) (pages : size.toNat % 4096 = 0) (positive : 0 < size.toNat)
    (run : (sbrk kernel size).run s = some (failed, t)) : t.lists = s.lists ∧ t.brk = s.brk ∧ ∀ x : UInt64, x.toNat < s.brk.toNat → t.mem x = s.mem x := by
  by_cases fits : s.brk.toNat + size.toNat < 2 ^ 64
  · obtain ⟨grown, -, ⟨-, same⟩ | ⟨same, good, -⟩⟩ := sbrk_run brk pages positive (.inl fits) run
    · exact ⟨grown.lists, same, grown.mem⟩
    · exact (good rfl).elim
  · have good : s.brk ≠ failed := by
      intro same
      have upper := brk.upper
      rw [same] at upper
      exact absurd upper (by decide)
    rw [sbrk_around brk pages positive (Nat.le_of_not_lt fits)] at run
    split at run
    · cases run
      exact ⟨rfl, rfl, fun _ _ => rfl⟩
    · split at run
      · exact (good (congrArg Prod.fst (Option.some.inj run))).elim
      · exact (good (congrArg Prod.fst (Option.some.inj run))).elim

theorem copyLen_inside (inv : MallocInv regions live s) (member : (p, a) ∈ live) (q : UInt64) : ∃ r ∈ regions, r.start ≤ p.toNat ∧
    p.toNat + copyLen s.mem p q ≤ r.start + r.len ∧ (4096 < a ∨ a ≤ (oldSize s.mem p).toNat) ∧ ∀ b, r.bucket = some b → p.toNat = r.start + 16 := by
  obtain ⟨few, -⟩ := copyLen_le s.mem p q
  cases inv.owned _ member with
  | large r region bucket place fits big =>
      refine ⟨r, region, by omega, by omega, .inl big, fun b some_ => ?_⟩
      rw [bucket] at some_
      cases some_
  | block r region b bucket place fits positive =>
      have header := inv.headers r region b bucket
      have start := toNat_start inv.toRegionsOk region
      have bound := p.toNat_lt
      have back : p - headerSize = .ofNat r.start := by
        apply UInt64.toNat_inj.mp
        have value := UInt64.toNat_sub p headerSize
        change _ = (2 ^ 64 - 16 + p.toNat) % 2 ^ 64 at value
        omega
      have old : (oldSize s.mem p).toNat = r.len - 16 := by
        have all : ∀ c : Fin 9, (bucketSz c - headerSize).toNat = (bucketSz c).toNat - 16 := by decide
        unfold oldSize
        dsimp only
        rw [back, header.bucket, if_pos header.small, header.len]
        exact all ⟨b, header.small⟩
      have less : copyLen s.mem p q ≤ (oldSize s.mem p).toNat := by
        unfold copyLen
        split
        · exact Nat.le_refl _
        · next more =>
            rw [UInt64.lt_iff_toNat_lt] at more
            omega
      exact ⟨r, region, by omega, by omega, .inr (by omega), fun _ _ => place⟩

theorem copy_apart (inv : MallocInv regions live s) (member : (p, a) ∈ live) (malloced : Malloced regions live s q newSize t) (some_ : q ≠ 0) :
    q.toNat + newSize.toNat ≤ p.toNat ∨ p.toNat + copyLen s.mem p newSize ≤ q.toNat := by
  obtain ⟨r, region, start, end_, -, block⟩ := copyLen_inside inv member newSize
  have inside := (inv.inside r region).2.2
  rcases malloced.place with zero | ⟨-, high⟩ | ⟨h, b, -, place, taken_, fits⟩
  · exact (some_ zero).elim
  · exact .inr (by omega)
  rcases inv.apart _ taken_ r region with same | before | behind
  · -- the new block is not the old one
    have here : p.toNat = h.toNat + 16 := by
      have := block b (by rw [← same]; rfl)
      rw [← same] at this
      exact this
    obtain ⟨regions', inv'⟩ := malloced.inv
    unfold Live.add at inv'
    rw [if_neg some_] at inv'
    have same : q = p := UInt64.toNat_inj.mp (by omega)
    exact ((List.pairwise_cons.mp inv'.distinct).1 _ member same).elim
  · unfold Region.before at before
    change h.toNat + (bucketSz b).toNat ≤ r.start at before
    exact .inl (by omega)
  · unfold Region.before at behind
    change r.start + r.len ≤ h.toNat at behind
    exact .inr (by omega)

theorem Served.fine (served : Served s size) : SizeFine s size := by
  rcases served with ⟨large, small⟩ | ⟨large, small, fits⟩
  · exact .inr (.inl ⟨large, by omega⟩)
  · exact .inr (.inr ⟨large, small, .inl fits⟩)

theorem realloc_calls (nonzero : p ≠ 0) (some_ : newSize ≠ 0) (run : (realloc kernel p newSize).run s = some (q, t)) :
    q = 0 ∧ (malloc kernel newSize).run s = some (0, t) ∨
      q ≠ 0 ∧ ∃ u v, (malloc kernel newSize).run s = some (q, u) ∧
        (forRange (copyByte q p) 0 (copyLen s.mem p newSize)).run u = some ((), v) ∧ (free p).run v = some ((), t) := by
  unfold realloc at run
  rw [if_neg nonzero, if_neg some_] at run
  replace run := run_header run
  rw [run_bind_some (x := get) rfl] at run
  dsimp only at run
  obtain ⟨r, u, alloc, rest⟩ := run_bind_eq_some.mp run
  by_cases refusal : r = 0
  · rw [if_pos refusal] at rest
    cases rest
    exact .inl ⟨rfl, by rw [← refusal]; exact alloc⟩
  · rw [if_neg refusal] at rest
    obtain ⟨_, v, copy, rest⟩ := run_bind_eq_some.mp rest
    obtain ⟨_, w, release, last⟩ := run_bind_eq_some.mp rest
    cases last
    exact .inr ⟨refusal, u, v, alloc, copy, release⟩

theorem MallocInv.nonzero (inv : MallocInv regions live s) (member : (p, n) ∈ live) : p ≠ 0 := by
  rintro rfl
  obtain ⟨r, region, -, lower, -⟩ := inv.place_cases member
  have start := (inv.inside r region).1
  rw [heapStart_eq] at start
  change r.start ≤ 0 at lower
  omega

theorem reallocated_refused (inv : MallocInv regions live t) (member : (p, a) ∈ live) (same : ∀ l ∈ live, SameBytes s t l) :
    Reallocated live s p a newSize 0 t :=
  ⟨fun some_ => (some_ rfl).elim, fun _ => ⟨inv.stillLive member, same _ member⟩, fun l other _ => same l other⟩

theorem request_pages (small : size.toNat ≤ 2 ^ 64 - 4096) (some_ : 0 < size.toNat) : (request size).toNat % 4096 = 0 ∧ 0 < (request size).toNat := by
  unfold request
  split
  · have rounded := toNat_pageUp small
    omega
  · decide

theorem refused_keeps (inv : MallocInv regions live s) (small : size.toNat ≤ 2 ^ 64 - 4096) (some_ : 0 < size.toNat)
    (ask : (sbrk kernel (request size)).run s = some (failed, t)) : MallocInv regions live t ∧ ∀ l ∈ live, SameBytes s t l := by
  obtain ⟨pages, positive⟩ := request_pages small some_
  obtain ⟨lists, brk, mem⟩ := sbrk_refused inv.brk pages positive ask
  have brkInv := inv.brk
  refine ⟨inv.stores lists ⟨by rw [brk]; exact brkInv.aligned, by rw [brk]; exact brkInv.lower, by rw [brk]; exact brkInv.upper⟩ (by rw [brk])
    fun r region b bucket x lower upper => ?_, fun l member x lower upper => ?_⟩
  · have inside := (inv.inside r region).2.2
    have wide := (inv.headers r region b bucket).wide
    exact mem x (by omega)
  · obtain ⟨r, region, -, start, end_, -⟩ := inv.place_cases member
    have inside := (inv.inside r region).2.2
    exact mem x (by omega)

theorem reallocated_moved (inv : MallocInv regions live s) (member : (p, a) ∈ live) (served : Served s newSize)
    (old : 4096 < a → newSize.toNat ≤ (oldSize s.mem p).toNat ∧ FrontFine (copied s p newSize) p) (some_ : q ≠ 0)
    (alloc : (malloc kernel newSize).run s = some (q, u))
    (copy : (forRange (copyByte q p) 0 (copyLen s.mem p newSize)).run u = some ((), v)) (release : (free p).run v = some ((), t)) :
    Reallocated live s p a newSize q t := by
  have malloced := malloc_run inv served.fine alloc
  obtain ⟨regions', inv'⟩ := malloced.inv
  unfold Live.add at inv'
  rw [if_neg some_] at inv'
  obtain ⟨-, less⟩ := copyLen_le s.mem p newSize
  obtain ⟨r, region, start, end_, size_, -⟩ := copyLen_inside inv member newSize
  have inside := (inv.inside r region).2.2
  have limit := inv.brk.upper
  rw [maxBrk_eq] at limit
  have whole := inv'.whole List.mem_cons_self
  have confined := copy_confined (by omega) copy
  have inv'' := inv'.confined List.mem_cons_self confined less
  have apart := copy_apart inv member malloced some_
  have bytes := copy_run (by omega) (by omega) (by omega) copy
  have front (big : 4096 < a) : FrontFine v.mem p := copied_front inv member big malloced some_ copy (old big).2
  have freed {l : UInt64 × Nat} (other : l ∈ (q, newSize.toNat) :: live) : SameBytes v t l :=
    free_keeps inv'' (List.mem_cons_of_mem _ member) front release other
  have brk : t.brk = u.brk := (free_brk release).trans confined.brk
  refine ⟨fun _ => ⟨?_, fun i within => ?_⟩, fun none => (some_ none).elim, fun l other _ => ?_⟩
  · have good := (inv'.good.inside _ List.mem_cons_self).2
    rw [brk]
    exact good
  · have place : (q + .ofNat i).toNat = q.toNat + i := toNat_add_ofNat (by omega)
    have index : q + .ofNat i - q = UInt64.ofNat i := by grind
    have value : (UInt64.ofNat i).toNat = i := UInt64.toNat_ofNat_of_lt' (by change i < 2 ^ 64; omega)
    have short : i < copyLen s.mem p newSize := by
      have enough : min a newSize.toNat ≤ copyLen s.mem p newSize := by
        unfold copyLen
        split
        · next more =>
            rw [UInt64.lt_iff_toNat_lt] at more
            rcases size_ with big | fits
            · have := (old big).1
              omega
            · omega
        · omega
      omega
    rw [freed List.mem_cons_self _ (by dsimp only; omega) (by dsimp only; omega), bytes, index, value, if_pos short]
    have from_ : (p + .ofNat i).toNat = p.toNat + i := toNat_add_ofNat (by omega)
    exact malloc_keeps inv served.fine alloc member _ (by dsimp only; omega) (by dsimp only; omega)
  · refine ((malloc_keeps inv served.fine alloc other).trans fun x lower upper => ?_).trans (freed (List.mem_cons_of_mem _ other))
    by_contra differs
    have wrote := confined.mem x differs
    have off := (List.pairwise_cons.mp inv'.good.apart).1 l other
    dsimp only at off
    omega

theorem realloc_reallocated (inv : MallocInv regions live s) (member : (p, a) ∈ live) (some_ : newSize ≠ 0) (met : ReallocMet kernel s p a newSize)
    (run : (realloc kernel p newSize).run s = some (q, t)) : Reallocated live s p a newSize q t := by
  have positive : 0 < newSize.toNat := by
    by_contra zero
    exact some_ (UInt64.toNat_inj.mp (by change newSize.toNat = 0; omega))
  have unmoved (l : UInt64 × Nat) (_ : l ∈ live) : SameBytes s s l := fun _ _ _ => rfl
  rcases realloc_calls (inv.nonzero member) some_ run with ⟨rfl, alloc⟩ | ⟨given, u, v, alloc, copy, release⟩
  · cases malloc_answered inv (Nat.mod_eq_of_lt newSize.toNat_lt) positive alloc with
    | refused _ denied ask =>
        have small : newSize.toNat ≤ 2 ^ 64 - 4096 := by
          rcases denied with ⟨-, small, -⟩ | ⟨-, small, -⟩ <;> omega
        obtain ⟨inv', same⟩ := refused_keeps inv small positive ask
        exact reallocated_refused inv' member same
    | given some_ => exact (some_ rfl).elim
    | behind some_ => exact (some_ rfl).elim
    | gap _ same =>
        subst same
        exact reallocated_refused inv member unmoved
  · replace met := met.2
    cases malloc_answered inv (Nat.mod_eq_of_lt newSize.toNat_lt) positive alloc with
    | refused none => exact (given none).elim
    | gap none => exact (given none).elim
    | given _ _ served paid =>
        have old : 4096 < a → newSize.toNat ≤ (oldSize s.mem p).toNat ∧ FrontFine (copied s p newSize) p := by
          rcases met with denied | ⟨large, small⟩ | ⟨-, old⟩
          · exact (paid denied).elim
          · rcases served with ⟨-, less⟩ | ⟨more, -⟩ <;> omega
          · exact old
        exact reallocated_moved inv member served old given alloc copy release
    | behind _ _ unmet =>
        rcases met with denied | ⟨large, small⟩ | ⟨served, -⟩
        · exact (unmet (.inr (.inl denied))).elim
        · exact (given (malloc_refused (.inr ⟨large, small⟩) alloc).1).elim
        · exact (unmet (.inr (.inr (.inl ⟨rfl, served⟩)))).elim

theorem sbrk_total (kernel : Supply) (increment : UInt64) (s : Arena) : ∃ r t, (sbrk kernel increment).run s = some (r, t) := by
  have brk (newBrk : UInt64) (s : Arena) : ∃ r t, (scBrk kernel newBrk).run s = some (r, t) := by
    unfold scBrk
    rw [run_bind_some (x := get) rfl]
    split
    · exact ⟨_, _, rfl⟩
    split
    · exact ⟨_, _, rfl⟩
    dsimp only
    split
    · exact ⟨_, _, rfl⟩
    · exact ⟨_, _, rfl⟩
  unfold sbrk
  obtain ⟨cur, t, first⟩ := brk 0 s
  rw [run_bind_some first]
  split
  · exact ⟨_, _, rfl⟩
  obtain ⟨new, u, second⟩ := brk (cur + increment) t
  rw [run_bind_some second]
  exact ⟨_, _, rfl⟩

theorem extendTo_total (kernel : Supply) (pageEnd : UInt64) (s : Arena) : ∃ more t, (extendTo kernel pageEnd).run s = some (more, t) := by
  unfold extendTo
  obtain ⟨cur, t, ask⟩ := sbrk_total kernel 0 s
  rw [run_bind_some ask]
  split
  · obtain ⟨r, u, grow⟩ := sbrk_total kernel (pageEnd - cur) t
    rw [run_bind_some grow]
    exact ⟨_, _, rfl⟩
  · exact ⟨_, _, rfl⟩

theorem mallocAddPage_total (kernel : Supply) (b : Nat) (s : Arena) : ∃ t, (mallocAddPage kernel b).run s = some ((), t) := by
  unfold mallocAddPage
  dsimp only
  obtain ⟨addr, t, first⟩ := sbrk_total kernel 0 s
  rw [run_bind_some first]
  obtain ⟨more, u, second⟩ := extendTo_total kernel (pageUp (addr + (if 0 < 4096 / bucketSz b then 4096 / bucketSz b else 1) * bucketSz b)) t
  rw [run_bind_some second]
  cases more with
  | true =>
      exact forRange_total (fun _ _ => ⟨_, rfl⟩) _ _ _
  | false => exact ⟨_, rfl⟩

theorem malloc_total (kernel : Supply) (size : UInt64) (s : Arena) : ∃ p t, (malloc kernel size).run s = some (p, t) := by
  have take (b : Nat) (s : Arena) : ∃ p t, (takeBlock b).run s = some (p, t) := by
    unfold takeBlock
    rw [run_bind_some (x := get) rfl]
    dsimp only
    split
    · exact ⟨_, _, rfl⟩
    · exact ⟨_, _, rfl⟩
  unfold malloc
  split
  · exact ⟨_, _, rfl⟩
  split
  · unfold mallocLarge
    obtain ⟨cur, t, first⟩ := sbrk_total kernel 0 s
    rw [run_bind_some first]
    obtain ⟨r, u, second⟩ := sbrk_total kernel (pageUp size) t
    rw [run_bind_some second]
    split
    · exact ⟨_, _, rfl⟩
    · exact ⟨_, _, rfl⟩
  split
  · exact ⟨_, _, rfl⟩
  · next b _ =>
    rw [run_bind_some (x := get) rfl]
    split
    · obtain ⟨t, page⟩ := mallocAddPage_total kernel b s
      rw [run_bind_some page]
      exact take b t
    · exact take b s

theorem header_fronted (fronted : heapStart ≤ p - headerSize) : (header p).run s = some (p - headerSize, s) := by
  unfold header
  rw [if_neg (UInt64.not_lt.mpr fronted)]
  rfl

theorem free_total (fronted : heapStart ≤ p - headerSize) : ∃ t, (free p).run s = some ((), t) := by
  unfold free
  split
  · exact ⟨_, rfl⟩
  rw [run_bind_some (header_fronted fronted), run_bind_some (x := get) rfl]
  dsimp only
  split
  · exact ⟨_, rfl⟩
  split
  · exact ⟨_, rfl⟩
  · exact ⟨_, rfl⟩

theorem realloc_total (fronted : heapStart ≤ p - headerSize) : ∃ q t, (realloc kernel p newSize).run s = some (q, t) := by
  unfold realloc
  split
  · exact malloc_total kernel newSize s
  split
  · obtain ⟨t, run⟩ := free_total (s := s) fronted
    rw [run_bind_some run]
    exact ⟨_, _, rfl⟩
  rw [run_bind_some (header_fronted fronted), run_bind_some (x := get) rfl]
  dsimp only
  obtain ⟨q, t, alloc⟩ := malloc_total kernel newSize s
  rw [run_bind_some alloc]
  split
  · exact ⟨_, _, rfl⟩
  obtain ⟨u, copy⟩ : ∃ u, (forRange (copyByte q p) 0 (if oldSize s.mem p < newSize then oldSize s.mem p else newSize).toNat).run t = some ((), u) :=
    forRange_total (fun _ _ => ⟨_, rfl⟩) _ _ _
  obtain ⟨v, release⟩ := free_total (s := u) fronted
  rw [run_bind_some copy, run_bind_some release]
  exact ⟨_, _, rfl⟩

theorem MallocInv.fronted (inv : MallocInv regions live s) (member : (p, a) ∈ live) (large : Fronted p a) : heapStart ≤ p - headerSize := by
  obtain ⟨r, region, -, -, -, block, mapping⟩ := inv.place_cases member
  have start := (inv.inside r region).1
  cases bucket : r.bucket with
  | none => exact large (mapping bucket).2
  | some b =>
      have place := block b bucket
      have value := UInt64.toNat_sub p headerSize
      change _ = (2 ^ 64 - 16 + p.toNat) % 2 ^ 64 at value
      have bound := p.toNat_lt
      rw [UInt64.le_iff_toNat_le]
      dsimp only at place
      omega

/-- After calls that were fine, `realloc` comes back and moves the bytes, and neither it nor `free` touches another allocation: for blocks with a
header whenever the new size is one that `malloc` has room for, and for large ones if there are bytes in front of them and these say so. -/
theorem realloc_keeps (run : MallocRun kernel Fine live s) :
    (∀ p a newSize, (p, a) ∈ live → newSize ≠ 0 → ReallocMet kernel s p a newSize →
      ∃ q t, (realloc kernel p newSize).run s = some (q, t) ∧ Reallocated live s p a newSize q t) ∧
    ∀ p a, (p, a) ∈ live → Fronted p a → (4096 < a → FrontFine s.mem p) →
      ∃ t, (free p).run s = some ((), t) ∧ ∀ l ∈ live, l ≠ (p, a) → SameBytes s t l := by
  obtain ⟨regions, inv⟩ := mallocRun_inv run
  constructor
  · intro p a newSize member some_ met
    obtain ⟨q, t, call⟩ : ∃ q t, (realloc kernel p newSize).run s = some (q, t) := realloc_total (inv.fronted member met.1)
    exact ⟨q, t, call, realloc_reallocated inv member some_ met call⟩
  · intro p a member fronted front
    obtain ⟨t, call⟩ := free_total (s := s) (inv.fronted member fronted)
    exact ⟨t, call, fun l other _ => free_keeps inv member front call other⟩

theorem realloc_keeps_thirty : ∃ p s q t, MallocRun plenty Fine [(p, 20)] s ∧ (realloc plenty p 30).run s = some (q, t) ∧ q ≠ 0 ∧
    Reallocated [(p, 20)] s p 20 30 q t := by
  have result : (((malloc plenty 20).run firstArena).bind fun r => ((realloc plenty r.1 30).run r.2).map fun w => (r.1, w.1)) =
      some (0x10000FD0, 0x10000F90) := by decide +kernel
  obtain ⟨⟨p, s⟩, first, rest⟩ := Option.bind_eq_some_iff.mp result
  obtain ⟨⟨q, t⟩, second, value⟩ := Option.map_eq_some_iff.mp rest
  obtain ⟨here, there⟩ := Prod.mk.inj value
  dsimp only at here there second
  subst here there
  have fine : Fine [] firstArena (.malloc 20) := .inr (.inl (by decide))
  have history : MallocRun plenty Fine [(0x10000FD0, 20)] s := .step .start fine (.malloc first)
  have met : ReallocMet plenty s 0x10000FD0 20 30 :=
    ⟨fun big => absurd big (by decide), .inr (.inr ⟨.inl (by decide), fun big => absurd big (by decide)⟩)⟩
  obtain ⟨q, t, again, kept⟩ := (realloc_keeps history).1 _ 20 30 List.mem_cons_self (by decide) met
  obtain ⟨rfl, rfl⟩ := Prod.mk.inj (Option.some.inj (again.symm.trans second))
  exact ⟨_, s, _, _, history, again, by decide, kept⟩

/-- Behind an allocation of 100 bytes, from 5000 bytes to 6000: nothing is copied. -/
theorem large_block_lost : ∃ p s q t, MallocRun plenty Fine [(p, 5000), (0x10000F90, 100)] s ∧ (realloc plenty p 6000).run s = some (q, t) ∧
    q ≠ 0 ∧ s.mem p = 7 ∧ t.mem q = 0 ∧ ¬Reallocated [(p, 5000), (0x10000F90, 100)] s p 5000 6000 q t := by
  have result : (((malloc plenty 100).run firstArena).bind fun f => ((malloc plenty 5000).run f.2).bind fun r =>
      ((realloc plenty r.1 6000).run { r.2 with mem := Function.update r.2.mem r.1 7 }).map fun w => (f.1, r.1, w.1, w.2.mem w.1)) =
      some (0x10000F90, 0x10001000, 0x10003000, 0) := by decide +kernel
  obtain ⟨⟨p₁, s₁⟩, small, rest⟩ := Option.bind_eq_some_iff.mp result
  obtain ⟨⟨p, s⟩, first, rest⟩ := Option.bind_eq_some_iff.mp rest
  obtain ⟨⟨q, t⟩, second, value⟩ := Option.map_eq_some_iff.mp rest
  obtain ⟨before, value⟩ := Prod.mk.inj value
  obtain ⟨here, value⟩ := Prod.mk.inj value
  obtain ⟨there, zero⟩ := Prod.mk.inj value
  dsimp only at before here there zero second first
  subst before here there
  have fine : Fine [] firstArena (.malloc 100) := .inr (.inl (by decide))
  have before : MallocRun plenty Fine [(0x10000F90, 100)] s₁ := .step .start fine (.malloc small)
  have fine' : Fine [(0x10000F90, 100)] s₁ (.malloc 5000) := by
    obtain ⟨regions, inv⟩ := mallocRun_inv before
    have upper := inv.brk.upper
    rw [maxBrk_eq] at upper
    have pages : (pageUp 5000).toNat = 8192 := by decide
    exact .inr (.inr ⟨by decide, by decide, .inl (by omega)⟩)
  have history : MallocRun plenty Fine [(0x10001000, 5000), (0x10000F90, 100)] s := .step before fine' (.malloc first)
  have stored : MallocRun plenty Fine [(0x10001000, 5000), (0x10000F90, 100)] { s with mem := Function.update s.mem 0x10001000 7 } := by
    have wrote : MallocStep plenty [(0x10001000, 5000), (0x10000F90, 100)] s (.store (Function.update s.mem 0x10001000 7))
        [(0x10001000, 5000), (0x10000F90, 100)] { s with mem := Function.update s.mem 0x10001000 7 } := by
      refine .store fun x differs => .inl ⟨_, List.mem_cons_self, ?_⟩
      by_cases here : x = 0x10001000
      · subst here
        decide
      · rw [Function.update_of_ne here] at differs
        exact (differs rfl).elim
    have allowed : Fine [(0x10001000, 5000), (0x10000F90, 100)] s (.store (Function.update s.mem 0x10001000 7)) := trivial
    exact .step history allowed wrote
  have seven : Function.update s.mem 0x10001000 7 0x10001000 = 7 := Function.update_self _ _ _
  refine ⟨_, _, _, t, stored, second, by decide, seven, zero, fun moved => ?_⟩
  have same := (moved.moved (by decide)).2 0 (by decide)
  change t.mem (0x10003000 + 0) = Function.update s.mem 0x10001000 7 (0x10001000 + 0) at same
  rw [UInt64.add_zero, UInt64.add_zero, zero, seven] at same
  exact absurd same (by decide)

end SwiftBSD.Proof.Userland
